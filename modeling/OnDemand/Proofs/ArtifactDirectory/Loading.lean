import Mathlib.Data.List.Perm.Basic
import OnDemand.Proofs.ArtifactDirectory.Room

/-!
# When a directory loads

Loading a directory that is there fails for four reasons: a list cannot be read, a directory below it
cannot be opened, or a file that has the extension and can be reached cannot be read or gets no name
(`load_iff`, `load_eq_error_iff`). Else each such file is loaded as one artifact (`forall₂_load`). What
is loaded is in ascending order of names, and where no two files get the same name each name is there
once (`ascending_load`).
-/

namespace OnDemand.ArtifactDirectory

open FileTree OnDemand.Path

variable {d : ArtifactDirectory} {t : FileTree} {cwd : Location} {as : List Artifact}
  {index : List (List String × Name)} {processors : List (List String)} {file : String}
  {deny : Denials}

/-! ## Names -/

theorem lookup_segments (bare : List String) : ∀ names : List Name,
    (names.map fun n => (n.segments, n)).lookup bare = names.find? (·.segments = bare)
  | [] => rfl
  | n :: names => by
    rw [List.map_cons, List.lookup_cons, List.find?_cons, lookup_segments bare names]
    by_cases h : n.segments = bare
    · simp [h]
    · simp [h, beq_eq_false_iff_ne.mpr (Ne.symm h)]

theorem lookup_nameIndex_eq (lines : List String) (bare : List String) :
    (d.nameIndex lines).lookup bare = (d.known.reverse.find? (·.segments = bare)).or
      ((lines.filterMap Name.parse?).reverse.find? (·.segments = bare)) := by
  unfold nameIndex
  rw [← List.map_reverse, lookup_segments, List.reverse_append, List.find?_append]

theorem nameFor_of_lookup {parts : List String} {n : Name}
    (h : index.lookup (bareParts parts) = some n) : d.nameFor index parts = .ok n := by
  unfold nameFor
  simp only [h]

theorem nameFor_of_lookup_eq_none {parts : List String} (h : index.lookup (bareParts parts) = none)
    {n : Name} : d.nameFor index parts = .ok n ↔
      n.text = (String.ofList [d.separator]).intercalate (bareParts parts) := by
  unfold nameFor
  simp only [h]
  constructor
  · intro hn
    cases hp : Name.parse ((String.ofList [d.separator]).intercalate (bareParts parts)) with
    | error e =>
      rw [hp] at hn
      cases hn
    | ok m =>
      rw [hp] at hn
      obtain rfl := Except.ok.inj hn
      exact Name.text_of_parse hp
  · intro hn
    rw [← hn, Name.parse_of_wellFormed n.wellFormed]
    rfl

/-! ## Failures -/

theorem reached_iff {parts : List String} : d.Reached deny parts ↔
    (d.root.joinAll parts).tooLong = false ∧
      ∀ ps, ps <+: parts → ps ≠ parts → ps ∉ deny.passing := by
  have hway : ((List.range parts.length).any fun i => parts.take i ∈ deny.passing) = false ↔
      ∀ ps, ps <+: parts → ps ≠ parts → ps ∉ deny.passing := by
    simp only [List.any_eq_false, List.mem_range, decide_eq_true_eq]
    constructor
    · intro h ps hps hne
      rw [List.prefix_iff_eq_take.mp hps]
      refine h _ (Nat.lt_of_le_of_ne hps.length_le fun hlength => hne ?_)
      exact hps.eq_of_length hlength
    · intro h i hi
      refine h _ (List.take_prefix i parts) fun heq => ?_
      have hlength := congrArg List.length heq
      rw [List.length_take] at hlength
      omega
  unfold Reached barred?
  rw [← hway]
  cases (d.root.joinAll parts).tooLong <;>
    cases (List.range parts.length).any fun i => parts.take i ∈ deny.passing <;> simp

/-- Nobody is kept from reading a list. -/
def Granted (d : ArtifactDirectory) (t : FileTree) (cwd : Location) (deny : Denials)
    (file : String) : Prop :=
  [] ∉ deny.passing ∧ ([file] ∈ deny.opening → t.entry? (d.location cwd ++ [file]) = none)

/-- The directory and all directories below it can be opened. -/
def Walkable (d : ArtifactDirectory) (t : FileTree) (cwd : Location)
    (deny : Denials := .none) : Prop :=
  ∀ parts, t.entry? (d.location cwd ++ parts) = some .dir → d.unopened? deny parts = none

/-- Each file that has the extension and can be reached can be read. -/
def Openable (d : ArtifactDirectory) (t : FileTree) (cwd : Location) (deny : Denials) : Prop :=
  ∀ parts bytes, t.file? (d.location cwd ++ parts) = some bytes → d.isArtifactFile parts = true →
    d.Reached deny parts → parts ∉ deny.opening

/-- Each file that has the extension and can be reached gets a name. -/
def Nameable (d : ArtifactDirectory) (t : FileTree) (cwd : Location)
    (deny : Denials := .none) : Prop :=
  ∀ parts bytes, t.file? (d.location cwd ++ parts) = some bytes → d.isArtifactFile parts = true →
    d.Reached deny parts → ∃ n, d.nameAt t cwd parts = .ok n

theorem granted_none (d : ArtifactDirectory) (t : FileTree) (cwd : Location) (file : String) :
    d.Granted t cwd .none file := by
  simp [Granted, Denials.none]

theorem openable_none (d : ArtifactDirectory) (t : FileTree) (cwd : Location) :
    d.Openable t cwd .none := by
  simp [Openable, Denials.none]

theorem readListIn_iff : (∃ lines, d.readListIn t cwd deny (d.location cwd) file = .ok lines) ↔
    d.Granted t cwd deny file ∧ d.Readable t cwd file := by
  have hgranted : d.Granted t cwd deny file ↔ ¬ ([] ∈ deny.passing ∨
      [file] ∈ deny.opening ∧ (t.entry? (d.location cwd ++ [file])).isSome) := by
    simp [Granted]
  unfold readListIn
  rw [hgranted]
  split
  · rename_i hrefused
    simp [hrefused]
  · rename_i hrefused
    simp only [hrefused, not_false_eq_true, true_and]
    rfl

theorem exists_loaded_iff {files : List (List String × ByteArray)} :
    (∃ as, List.Forall₂ (d.LoadedAs index processors) files as) ↔
      ∀ file ∈ files, ∃ n, d.nameFor index file.1 = .ok n := by
  induction files with
  | nil => simp
  | cons file files ih =>
    rw [List.forall_mem_cons, ← ih]
    constructor
    · rintro ⟨_, h⟩
      obtain ⟨_, as, ⟨n, hn, -⟩, has, rfl⟩ := List.forall₂_cons_left_iff.mp h
      exact ⟨⟨n, hn⟩, as, has⟩
    · rintro ⟨⟨n, hn⟩, as, has⟩
      exact ⟨_ :: as, .cons ⟨n, hn, rfl⟩ has⟩

/-- What is below a directory is loaded where all directories can be opened and all files that are taken
can be read and get names. -/
theorem loadEntries_iff (hk : t.Keyed) (hr : t.isDir cwd d.root = true)
    (processors : List (List String)) :
    (∃ as, d.loadEntries deny (d.nameIndex (d.listAt t cwd namesFile)) processors
        (walk t (d.location cwd)) = .ok as) ↔
      d.Walkable t cwd deny ∧ d.Openable t cwd deny ∧ d.Nameable t cwd deny := by
  -- the walk has the directory itself and all that is below it
  have hwalk : ∀ parts e, (parts, e) ∈ walk t (d.location cwd) ↔
      t.entry? (d.location cwd ++ parts) = some e := by
    intro parts e
    have hroot : t.entry? (d.location cwd) = some .dir := (isDir_spec hr).2
    rw [List.mem_cons, mem_entriesBelow hk]
    by_cases hparts : parts = []
    · simp [hparts, hroot, eq_comm]
    · simp [hparts]
  have htaken : ∀ P : List String → ByteArray → Prop,
      (∀ file ∈ (walk t (d.location cwd)).filterMap (d.taken? deny), P file.1 file.2) ↔
        ∀ parts bytes, t.file? (d.location cwd ++ parts) = some bytes →
          d.isArtifactFile parts = true → d.Reached deny parts → P parts bytes := by
    intro P
    constructor
    · intro h parts bytes hfile hparts hreached
      exact h (parts, bytes) ((mem_takenFiles hk).mpr ⟨hfile, hparts, hreached⟩)
    · rintro h ⟨parts, bytes⟩ hmem
      obtain ⟨hfile, hparts, hreached⟩ := (mem_takenFiles hk).mp hmem
      exact h parts bytes hfile hparts hreached
  simp only [loadEntries_eq_ok, exists_and_left, exists_loaded_iff, hwalk]
  exact and_congr_right fun _ => and_congr (htaken fun parts _ => parts ∉ deny.opening)
    (htaken fun parts _ => ∃ n, d.nameAt t cwd parts = .ok n)

theorem load_iff (hk : t.Keyed) (hr : t.isDir cwd d.root = true) :
    (∃ as, d.load t cwd deny = .ok as) ↔
      (d.Granted t cwd deny namesFile ∧ d.Readable t cwd namesFile) ∧
        (d.Granted t cwd deny processorsFile ∧ d.Readable t cwd processorsFile) ∧
        d.Walkable t cwd deny ∧ d.Openable t cwd deny ∧ d.Nameable t cwd deny := by
  rw [← readListIn_iff, ← readListIn_iff]
  unfold load
  rw [look_of_isDir hr]
  simp only
  cases hprocessors : d.readListIn t cwd deny (d.location cwd) processorsFile with
  | error e => simp
  | ok processorLines =>
    cases hnames : d.readListIn t cwd deny (d.location cwd) namesFile with
    | error e => simp
    | ok nameLines =>
      rw [readList_spec stem_namesFile.part hr (readList_of_readListIn hnames)]
      simp only [map_eq_ok, Except.ok.injEq, exists_eq', true_and]
      rw [← loadEntries_iff hk hr ((processorLines.filterMap Name.parse?).map Name.segments),
        exists_comm]
      simp only [exists_eq_right']

theorem load_none_iff (hk : t.Keyed) (hr : t.isDir cwd d.root = true) :
    (∃ as, d.load t cwd = .ok as) ↔
      d.Readable t cwd namesFile ∧ d.Readable t cwd processorsFile ∧ d.Walkable t cwd ∧
        d.Nameable t cwd := by
  simp only [load_iff hk hr, granted_none, openable_none, true_and]

theorem walkable_none : d.Walkable t cwd ↔ ∀ parts,
    t.entry? (d.location cwd ++ parts) = some .dir → (d.root.joinAll parts).tooLong = false := by
  unfold Walkable
  simp only [unopened?_none, ← reached_none, Reached]

theorem Walkable.wrote {t' : FileTree} {written : List Artifact} (h : d.Walkable t cwd)
    (hw : d.Wrote cwd t t' as written) : d.Walkable t' cwd := by
  refine walkable_none.mpr fun parts hdir => ?_
  rcases hw.newDirs _ hdir with hdir | ⟨a, -, q, -, -, heq, hshort⟩
  · exact walkable_none.mp h parts hdir
  · rwa [List.append_cancel_left heq]

theorem Walkable.adds {t' : FileTree} {names : List Name} (h : d.Walkable t cwd)
    (ha : d.Adds cwd t t' file names) : d.Walkable t' cwd :=
  fun parts hdir => h parts (ha.noDirs _ hdir)

theorem Empty.walkable (h : d.Empty cwd t) : d.Walkable t cwd := by
  refine walkable_none.mpr fun parts hdir => ?_
  by_cases hparts : parts = []
  · rw [hparts]
    exact short_of_isDir h.isDir
  · rw [h.entry? parts hparts] at hdir
    cases hdir

theorem not_readable_iff : ¬ d.Readable t cwd file ↔ t.Unreadable cwd (d.listPath file) := by
  unfold Readable Unreadable readList
  cases t.readText cwd (d.listPath file) with
  | ok text => simp
  | error e => cases e <;> simp

/-- Loading fails where the directory is there and a list cannot be read, a directory cannot be opened
or a file cannot be read or has no name. -/
theorem load_eq_error_iff (hk : t.Keyed) (cwd : Location) (deny : Denials) :
    (∃ e, d.load t cwd deny = .error e) ↔
      t.pathExists cwd d.root = true ∧ (t.Unreadable cwd (d.listPath namesFile) ∨
        t.Unreadable cwd (d.listPath processorsFile) ∨
        t.isDir cwd d.root = true ∧ ¬ (d.Granted t cwd deny namesFile ∧
          d.Granted t cwd deny processorsFile ∧ d.Walkable t cwd deny ∧
          d.Openable t cwd deny ∧ d.Nameable t cwd deny)) := by
  cases hlook : t.look cwd d.root with
  | error err => simp [load, pathExists, hlook, Except.toOption]
  | ok at' =>
    obtain ⟨l, entry⟩ := at'
    have hthere : t.pathExists cwd d.root = true := by simp [pathExists, hlook, Except.toOption]
    cases entry with
    | dir =>
      have hr : t.isDir cwd d.root = true := by simp [isDir, hlook]
      have hload : (∃ e, d.load t cwd deny = .error e) ↔ ¬ ∃ as, d.load t cwd deny = .ok as := by
        cases d.load t cwd deny <;> simp
      simp only [hload, load_iff hk hr, hthere, hr, true_and, ← not_readable_iff]
      tauto
    | file bytes =>
      -- nothing can be read below a file
      have hlists : ∀ {file : String}, Path.Part file → t.Unreadable cwd (d.listPath file) := fun hs =>
        unreadable_below_file hs hlook
      obtain ⟨e, he, hne⟩ := hlists stem_processorsFile.part
      refine iff_of_true ?_ ⟨hthere, Or.inl (hlists stem_namesFile.part)⟩
      obtain ⟨e, he⟩ : ∃ e, d.readListIn t cwd deny l processorsFile = .error e := by
        unfold readListIn readList
        simp only [he]
        split
        · exact ⟨_, rfl⟩
        · cases e <;> first | exact absurd rfl hne | exact ⟨_, rfl⟩
      exact ⟨e, by simp only [load, hlook, he]⟩

/-! ## One artifact for each file -/

/-- What is loaded from a directory, file by file. -/
theorem forall₂_load (hk : t.Keyed) (hr : t.isDir cwd d.root = true)
    (h : d.load t cwd deny = .ok as) :
    ∃ files : List (List String × ByteArray), (files.map (·.1)).Nodup ∧
      (∀ parts bytes, (parts, bytes) ∈ files ↔ t.file? (d.location cwd ++ parts) = some bytes ∧
        d.isArtifactFile parts = true ∧ d.Reached deny parts) ∧
      List.Forall₂ (fun file a => ∃ n, d.nameAt t cwd file.1 = .ok n ∧
        a = artifactOf n file.2 (d.marked t cwd file.1)) files as := by
  obtain ⟨loaded, hload, hsort⟩ := load_spec hr h
  have hmoved : loaded.Perm as := hsort ▸ (List.mergeSort_perm loaded _).symm
  -- sorting moves the artifacts, so the files are taken along
  have hsorted : Relation.Comp (List.Forall₂ _) List.Perm _ as :=
    ⟨loaded, (loadEntries_eq_ok.mp hload).2.2, hmoved⟩
  rw [List.forall₂_comp_perm_eq_perm_comp_forall₂] at hsorted
  obtain ⟨files, hperm, hfiles⟩ := hsorted
  refine ⟨files, ?_, fun parts bytes => ?_, ?_⟩
  · rw [← (hperm.map _).nodup_iff]
    exact nodup_takenFiles hk d cwd deny
  · rw [← hperm.mem_iff]
    exact mem_takenFiles hk
  · exact hfiles

/-! ## Order -/

theorem pairwise_loaded {files : List (List String × ByteArray)}
    (hloaded : List.Forall₂ (d.LoadedAs index processors) files as) (hn : (files.map (·.1)).Nodup)
    (happart : ∀ f ∈ files, ∀ g ∈ files, ∀ n, d.nameFor index f.1 = .ok n →
      d.nameFor index g.1 = .ok n → f.1 = g.1) : as.Pairwise fun a b => a.name ≠ b.name := by
  induction hloaded with
  | nil => exact .nil
  | cons hfile hrest ih =>
    rename_i file a files as
    rw [List.map_cons, List.nodup_cons] at hn
    refine List.pairwise_cons.mpr ⟨fun b hb heq => hn.1 ?_, ih hn.2 fun f hf g hg =>
      happart f (List.mem_cons_of_mem _ hf) g (List.mem_cons_of_mem _ hg)⟩
    obtain ⟨n, hname, rfl⟩ := hfile
    obtain ⟨g, hg, m, hm, rfl⟩ := (mem_of_loaded hrest).mp hb
    rw [name_artifactOf, name_artifactOf] at heq
    rw [happart file (by simp) g (by simp [hg]) n hname (heq ▸ hm)]
    exact List.mem_map.mpr ⟨g, hg, rfl⟩

theorem pairwise_sorted (as : List Artifact) :
    (as.mergeSort fun a b => !decide (b.name < a.name)).Pairwise fun a b => ¬ b.name < a.name := by
  have hsorted : (as.mergeSort fun a b => !decide (b.name < a.name)).Pairwise
      fun a b => (!decide (b.name < a.name)) = true := by
    refine List.pairwise_mergeSort (fun a b c hab hbc => ?_) (fun a b => ?_) as
    · simp only [Bool.not_eq_true', decide_eq_false_iff_not] at hab hbc ⊢
      exact String.le_trans hab hbc
    · simp only [Bool.or_eq_true, Bool.not_eq_true', decide_eq_false_iff_not]
      exact String.le_total a.name.text b.name.text
  exact hsorted.imp fun h => by simpa using h

theorem sorted_load (hr : t.isDir cwd d.root = true) (h : d.load t cwd deny = .ok as) :
    as.Pairwise fun a b => ¬ b.name < a.name := by
  obtain ⟨loaded, -, rfl⟩ := load_spec hr h
  exact pairwise_sorted loaded

theorem ascending_sorted (h : as.Pairwise fun a b => a.name ≠ b.name) :
    (as.mergeSort fun a b => !decide (b.name < a.name)).Pairwise fun a b => a.name < b.name := by
  have hne := (List.mergeSort_perm as fun a b => !decide (b.name < a.name)).pairwise_iff
    (fun h => Ne.symm h) |>.mpr h
  refine ((pairwise_sorted as).and hne).imp fun ⟨hle, hne⟩ => ?_
  exact Decidable.not_not.mp fun hlt => hne (Name.eq_of_text_eq (String.le_antisymm hle hlt))

/-- Where no two files get the same name, each name is loaded once. -/
theorem ascending_load (hk : t.Keyed) (hr : t.isDir cwd d.root = true)
    (happart : ∀ p q n, t.file? (d.location cwd ++ p) ≠ none → t.file? (d.location cwd ++ q) ≠ none →
      d.isArtifactFile p = true → d.isArtifactFile q = true →
      d.nameAt t cwd p = .ok n → d.nameAt t cwd q = .ok n → p = q)
    (h : d.load t cwd = .ok as) : as.Pairwise fun a b => a.name < b.name := by
  obtain ⟨loaded, hload, rfl⟩ := load_spec hr h
  obtain ⟨-, -, hfiles⟩ := loadEntries_eq_ok.mp hload
  refine ascending_sorted (pairwise_loaded hfiles (nodup_takenFiles hk d cwd _) ?_)
  rintro ⟨p, bytes⟩ hp ⟨q, bytes'⟩ hq n
  obtain ⟨hfile, hparts, -⟩ := (mem_takenFiles hk).mp hp
  obtain ⟨hfile', hparts', -⟩ := (mem_takenFiles hk).mp hq
  exact happart p q n (by simp [hfile]) (by simp [hfile']) hparts hparts'

end OnDemand.ArtifactDirectory
