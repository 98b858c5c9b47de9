import OnDemand.Proofs.ArtifactDirectory.Loading

/-!
# Saves that fail

A directory that loads still does after a save, whether it succeeds or not (`Loadable.save`): lists
stay readable and each new file gets a name. A save is no transaction. One that fails has written the
artifacts before the one that could not be written and leaves them there, unlisted, so what is loaded
is what was loaded before with these files put in (`loadsFrom_wrote`).
-/

namespace OnDemand.ArtifactDirectory

open FileTree OnDemand.Path

variable {d : ArtifactDirectory} {t t' u : FileTree} {cwd : Location} {file : String}
  {as written : List Artifact} {parts : List String}

/-! ## Names that stay -/

theorem nameAt_partsOf (hd : d.Sound) (hsep : Name.isForbidden d.separator = false) (t : FileTree)
    (cwd : Location) (n : Name) : ∃ m, d.nameAt t cwd (d.partsOf n.segments) = .ok m := by
  unfold nameAt nameFor
  rw [bareParts_partsOf hd]
  simp only
  split
  · exact ⟨_, rfl⟩
  · rw [Name.parse_of_wellFormed (Name.wellFormed_intercalate hsep n)]
    exact ⟨_, rfl⟩

theorem nameIndex_subset {lines lines' : List String} (h : lines ⊆ lines') :
    d.nameIndex lines ⊆ d.nameIndex lines' := by
  unfold nameIndex
  refine List.reverse_subset.mpr (List.subset_reverse.mpr (List.map_subset _ ?_))
  exact List.append_subset.mpr ⟨fun n hn => List.mem_append_left _ (List.filterMap_subset _ h hn),
    List.subset_append_right _ _⟩

theorem nameFor_subset {lines lines' : List String} (h : lines ⊆ lines') {n : Name}
    (hn : d.nameFor (d.nameIndex lines) parts = .ok n) :
    ∃ m, d.nameFor (d.nameIndex lines') parts = .ok m := by
  unfold nameFor at hn ⊢
  simp only at hn ⊢
  cases hfound' : (d.nameIndex lines').lookup (bareParts parts) with
  | some m => exact ⟨m, rfl⟩
  | none =>
    have hnone : (d.nameIndex lines).lookup (bareParts parts) = none := by
      rw [List.lookup_eq_none_iff] at hfound' ⊢
      exact fun e he => hfound' e (nameIndex_subset h he)
    rw [hnone] at hn
    exact ⟨n, hn⟩

theorem nameAt_congr (h : d.listAt u cwd namesFile = d.listAt t cwd namesFile)
    (parts : List String) : d.nameAt u cwd parts = d.nameAt t cwd parts := by
  unfold nameAt
  rw [h]

theorem marked_congr (h : d.listAt u cwd processorsFile = d.listAt t cwd processorsFile)
    (parts : List String) : d.marked u cwd parts = d.marked t cwd parts := by
  unfold marked
  rw [h]

theorem Wrote.listAt_eq (hd : d.Sound) (hw : d.Wrote cwd t u as written)
    (hfile : file = namesFile ∨ file = processorsFile) :
    d.listAt u cwd file = d.listAt t cwd file :=
  listAt_congr (hw.list fun a _ => fileParts_ne_of_stem hd (stem_of_list hfile) a.name)

theorem Wrote.file_below (hd : d.Sound) (hw : d.Wrote cwd t u as written) (parts : List String) :
    u.file? (d.location cwd ++ parts) =
      ((written.reverse.find? fun w => d.partsOf w.name.segments = parts).map (·.payload)).or
        (t.file? (d.location cwd ++ parts)) := by
  rw [hw.file?]
  simp only [fileParts_of_sound hd, List.append_cancel_left_eq]

/-! ## Directories that load -/

structure Loadable (d : ArtifactDirectory) (cwd : Location) (t : FileTree) : Prop where
  keyed : t.Keyed
  isDir : t.isDir cwd d.root = true
  readable : ∀ file, file = namesFile ∨ file = processorsFile → d.Readable t cwd file
  walkable : d.Walkable t cwd
  nameable : d.Nameable t cwd

theorem loadable_iff (hk : t.Keyed) (hr : t.isDir cwd d.root = true) :
    d.Loadable cwd t ↔ ∃ as, d.load t cwd = .ok as := by
  rw [load_none_iff hk hr]
  constructor
  · exact fun h =>
      ⟨h.readable _ (Or.inl rfl), h.readable _ (Or.inr rfl), h.walkable, h.nameable⟩
  · rintro ⟨hnames, hprocessors, hwalkable, hnameable⟩
    refine ⟨hk, hr, ?_, hwalkable, hnameable⟩
    rintro file (rfl | rfl)
    · exact hnames
    · exact hprocessors

theorem Empty.loadable (h : d.Empty cwd t) (hk : t.Keyed)
    (hf : ∀ file, file = namesFile ∨ file = processorsFile → Fit (d.listPath file)) :
    d.Loadable cwd t := by
  refine ⟨hk, h.isDir, fun file hfile => h.readable (stem_of_list hfile).part (hf file hfile),
    h.walkable, ?_⟩
  intro parts bytes hfile
  rw [h.file?] at hfile
  cases hfile

theorem Loadable.wrote (hd : d.Sound) (hsep : Name.isForbidden d.separator = false)
    (hb : ∀ a ∈ as, a.name.Beside) (hw : d.Wrote cwd t u as written) (h : d.Loadable cwd t) :
    d.Loadable cwd u := by
  refine ⟨hw.keyed h.keyed, isDir_kept hw.dirs h.isDir, fun file hfile => ?_, h.walkable.wrote hw, ?_⟩
  · exact hw.readable hfile h.isDir hb
      (fun a _ => fileParts_ne_of_stem hd (stem_of_list hfile) a.name) (h.readable file hfile)
  · intro parts bytes hf hparts hreached
    rw [hw.file_below hd] at hf
    cases hfind : written.reverse.find? fun w => d.partsOf w.name.segments = parts with
    | some w =>
      obtain rfl : d.partsOf w.name.segments = parts := by simpa using List.find?_some hfind
      exact nameAt_partsOf hd hsep u cwd w.name
    | none =>
      rw [hfind, Option.map_none, Option.none_or] at hf
      rw [nameAt_congr (hw.listAt_eq hd (Or.inl rfl))]
      exact h.nameable parts bytes hf hparts hreached

theorem Loadable.adds {names : List Name} (hfile : file = namesFile ∨ file = processorsFile)
    (ha : d.Adds cwd t u file names) (h : d.Loadable cwd t) : d.Loadable cwd u := by
  have hlines : d.listAt t cwd namesFile ⊆ d.listAt u cwd namesFile := by
    by_cases hsame : file = namesFile
    · subst hsame
      rw [ha.listAt]
      exact fun l hl => List.mem_filter.mpr
        ⟨(mem_extended _ _).mpr (Or.inl hl), isEntry_of_mem_listAt hl⟩
    · rw [listAt_congr (ha.others _ fun heq => hsame ?_)]
      · exact fun l hl => hl
      · exact (List.cons.inj (List.append_cancel_left heq)).1.symm
  refine ⟨ha.keyed h.keyed, isDir_kept ha.dirs h.isDir, fun other hother => ?_, h.walkable.adds ha, ?_⟩
  · by_cases hsame : other = file
    · exact hsame ▸ ha.readable
    · exact ha.readable_other (stem_of_list hother).part h.isDir hsame (h.readable other hother)
  · intro parts bytes hf hparts hreached
    rw [ha.others] at hf
    · obtain ⟨n, hn⟩ := h.nameable parts bytes hf hparts hreached
      exact nameFor_subset hlines hn
    · intro heq
      obtain rfl := List.append_cancel_left heq
      simp [isArtifactFile, extension?_stem (stem_of_list hfile)] at hparts

/-- A directory that loads still does after a save. -/
theorem Loadable.save (hd : d.Sound) (hsep : Name.isForbidden d.separator = false)
    (hb : ∀ a ∈ as, a.name.Beside) (h : d.Loadable cwd t) {r : Except DirectoryError Unit}
    (hsave : d.save t cwd as = (t', r)) : d.Loadable cwd t' := by
  cases save_cases h.isDir hsave with
  | stopped _ _ hw => exact h.wrote hd hsep hb hw
  | unlisted hw _ => exact h.wrote hd hsep hb hw
  | unmarked hw ha _ => exact (h.wrote hd hsep hb hw).adds (Or.inl rfl) ha
  | saved hw ha hm => exact ((h.wrote hd hsep hb hw).adds (Or.inl rfl) ha).adds (Or.inr rfl) hm

theorem Loadable.stopped (hd : d.Sound) (hsep : Name.isForbidden d.separator = false)
    (hb : ∀ a ∈ as, a.name.Beside) (h : d.Loadable cwd t) {e : DirectoryError}
    (hsave : d.save t cwd as = (t', .error e)) :
    ∃ written rest, as = written ++ rest ∧ rest ≠ [] ∧ d.Wrote cwd t t' as written := by
  cases save_cases h.isDir hsave with
  | stopped has hrest hw => exact ⟨_, _, has, hrest, hw⟩
  | unlisted hw hread => exact absurd ((h.wrote hd hsep hb hw).readable _ (Or.inl rfl)) hread
  | unmarked hw ha hread =>
    exact absurd (((h.wrote hd hsep hb hw).adds (Or.inl rfl) ha).readable _ (Or.inr rfl)) hread

/-! ## What a save that fails leaves -/

/-- The artifact that is loaded from the file of a written one, the last that has been written there,
under the name that the file had before. -/
def FromWritten (d : ArtifactDirectory) (cwd : Location) (t : FileTree) (written : List Artifact)
    (a : Artifact) : Prop :=
  ∃ earlier w later n, written = earlier ++ w :: later ∧
    (∀ c ∈ later, c.name.segments ≠ w.name.segments) ∧
    d.nameAt t cwd (d.partsOf w.name.segments) = .ok n ∧
    a = artifactOf n w.payload (d.marked t cwd (d.partsOf w.name.segments))

def FromOthers (d : ArtifactDirectory) (cwd : Location) (t : FileTree) (written : List Artifact)
    (a : Artifact) : Prop :=
  ∃ parts, (∀ w ∈ written, d.partsOf w.name.segments ≠ parts) ∧ d.LoadsFrom cwd t parts a

/-- Where artifacts have been written their files are loaded anew, and all others as before. -/
theorem loadsFrom_wrote (hd : d.Sound) (hw : d.Wrote cwd t u as written) {a : Artifact} :
    (∃ parts, d.LoadsFrom cwd u parts a) ↔
      d.FromOthers cwd t written a ∨ d.FromWritten cwd t written a := by
  have hname := nameAt_congr (hw.listAt_eq hd (Or.inl rfl))
  have hmark := marked_congr (hw.listAt_eq hd (Or.inr rfl))
  simp only [LoadsFrom, FromOthers, FromWritten, hw.file_below hd, hname, hmark]
  constructor
  · rintro ⟨parts, bytes, n, hf, hparts, hreached, hn, rfl⟩
    -- the last artifact written to a place decides what its file holds
    cases hfind : written.reverse.find? fun w => d.partsOf w.name.segments = parts with
    | none =>
      rw [hfind, Option.map_none, Option.none_or] at hf
      refine Or.inl ⟨parts, fun w hw => ?_, bytes, n, hf, hparts, hreached, hn, rfl⟩
      simpa using List.find?_eq_none.mp hfind w (List.mem_reverse.mpr hw)
    | some w =>
      rw [hfind] at hf
      obtain rfl := Option.some.inj hf
      obtain ⟨hw, earlier, later, hsplit, hlater⟩ := find?_reverse_eq_some.mp hfind
      obtain rfl : d.partsOf w.name.segments = parts := by simpa using hw
      refine Or.inr ⟨earlier, w, later, n, hsplit, fun c hc heq => ?_, hn, rfl⟩
      simpa [heq] using hlater c hc
  · rintro (⟨parts, hothers, bytes, n, hf, hrest⟩ | ⟨earlier, w, later, n, hsplit, hlater, hrest⟩)
    · refine ⟨parts, bytes, n, ?_, hrest⟩
      rw [List.find?_eq_none.mpr fun w hw => by simpa using hothers w (List.mem_reverse.mp hw)]
      exact hf
    · have hshort := hw.short w (by rw [hsplit]; simp)
      rw [fileParts_of_sound hd] at hshort
      refine ⟨d.partsOf w.name.segments, w.payload, n, ?_, isArtifactFile_partsOf hd w.name,
        reached_none.mpr hshort, hrest⟩
      rw [find?_reverse_eq_some.mpr ⟨by simp, earlier, later, hsplit, fun c hc => ?_⟩]
      · rfl
      · simpa [partsOf_inj hd] using hlater c hc

theorem from_congr
    (hsame : ∀ parts, u.file? (d.location cwd ++ parts) = t.file? (d.location cwd ++ parts))
    (a : Artifact) : d.FromOthers cwd u written a ∨ d.FromWritten cwd u written a ↔
      d.FromOthers cwd t written a ∨ d.FromWritten cwd t written a := by
  have hname := nameAt_congr (listAt_congr (hsame [namesFile]))
  have hmark := marked_congr (listAt_congr (hsame [processorsFile]))
  simp only [FromOthers, FromWritten, LoadsFrom, hname, hmark, hsame]

theorem fromWritten_nil {a : Artifact} : ¬ d.FromWritten cwd t [] a := by
  rintro ⟨earlier, w, later, n, hsplit, -⟩
  simp at hsplit

theorem fromOthers_nil {a : Artifact} :
    d.FromOthers cwd t [] a ↔ ∃ parts, d.LoadsFrom cwd t parts a := by
  simp [FromOthers]

/-- What is loaded after a save. If the save failed, the artifacts before one that could not be
written have been put in, and nothing else has changed. -/
structure LoadsAfter (d : ArtifactDirectory) (cwd : Location) (t : FileTree)
    (as before after : List Artifact) (r : Except DirectoryError Unit) : Prop where
  found : ∀ a, a ∈ before ↔ ∃ parts, d.LoadsFrom cwd t parts a
  failed : ∀ e, r = .error e → ∃ written rest, as = written ++ rest ∧ (rest = [] → as = []) ∧
    (∀ a, a ∈ after ↔ d.FromOthers cwd t written a ∨ d.FromWritten cwd t written a) ∧
    (written = [] → ∀ a, a ∈ after ↔ a ∈ before)

theorem LoadsAfter.of_from {before after : List Artifact} {r : Except DirectoryError Unit}
    (hbefore : ∀ a, a ∈ before ↔ ∃ parts, d.LoadsFrom cwd t parts a)
    (h : ∀ e, r = .error e → ∃ written rest, as = written ++ rest ∧ (rest = [] → as = []) ∧
      ∀ a, a ∈ after ↔ d.FromOthers cwd t written a ∨ d.FromWritten cwd t written a) :
    d.LoadsAfter cwd t as before after r := by
  refine ⟨hbefore, fun e he => ?_⟩
  obtain ⟨written, rest, has, hrest, hafter⟩ := h e he
  refine ⟨written, rest, has, hrest, hafter, ?_⟩
  rintro rfl a
  rw [hafter, hbefore, fromOthers_nil, or_iff_left fromWritten_nil]

theorem Loadable.load_after (hd : d.Sound) (hsep : Name.isForbidden d.separator = false)
    (hb : ∀ a ∈ as, a.name.Beside) (h : d.Loadable cwd t) {r : Except DirectoryError Unit}
    (hsave : d.save t cwd as = (t', r)) {before : List Artifact} (hload : d.load t cwd = .ok before) :
    ∃ after, d.load t' cwd = .ok after ∧ d.LoadsAfter cwd t as before after r := by
  have h' := h.save hd hsep hb hsave
  obtain ⟨after, hafter⟩ := (loadable_iff h'.keyed h'.isDir).mp h'
  refine ⟨after, hafter, .of_from (fun a => mem_load h.keyed h.isDir hload) ?_⟩
  rintro e rfl
  obtain ⟨written, rest, has, hrest, hw⟩ := h.stopped hd hsep hb hsave
  refine ⟨written, rest, has, fun hnil => absurd hnil hrest, fun a => ?_⟩
  rw [mem_load h'.keyed h'.isDir hafter, loadsFrom_wrote hd hw]

theorem Vacant.not_loadsFrom (h : d.Vacant cwd t) {a : Artifact} :
    ¬ ∃ parts, d.LoadsFrom cwd t parts a := by
  rintro ⟨parts, bytes, n, hf, -⟩
  rw [h.file_below] at hf
  cases hf

theorem Vacant.load_unmade (h : d.Vacant cwd t) (hk : t.Keyed)
    (hf : ∀ file, file = namesFile ∨ file = processorsFile → Fit (d.listPath file)) :
    d.load (t.makeDirs cwd d.root).1 cwd = .ok [] := by
  have hroom := roomier_makeDirs t cwd d.root
  by_cases hr : (t.makeDirs cwd d.root).1.isDir cwd d.root = true
  · have hempty : d.Empty cwd (t.makeDirs cwd d.root).1 := ⟨hr, h.entry?⟩
    obtain ⟨after, hafter⟩ :=
      (loadable_iff (hroom.keyed hk) hr).mp (hempty.loadable (hroom.keyed hk) hf)
    rw [hafter]
    refine congrArg _ (List.eq_nil_iff_forall_not_mem.mpr fun a ha => ?_)
    obtain ⟨parts, bytes, n, hfile, -⟩ := (mem_load (hroom.keyed hk) hr hafter).mp ha
    rw [hempty.file?] at hfile
    cases hfile
  · refine load_of_not_isDir (eq_false_of_ne_true hr) ?_
    rw [hroom.file?]
    exact h.file?

/-- A directory that loads, and one that is missing, loads after a save as well, whether the save
succeeds or not, unless a name needs a directory where a list is. If the save failed, the artifacts
before one that could not be written have been written: they are loaded from their files, and what was
loaded from other files still is. -/
theorem load_after_save (hd : d.Sound) (hsep : Name.isForbidden d.separator = false) (hk : t.Keyed)
    (hthere : t.isDir cwd d.root = true ∨ d.Vacant cwd t ∧
      ∀ file, file = namesFile ∨ file = processorsFile → Fit (d.listPath file))
    {before : List Artifact} (hload : d.load t cwd = .ok before) (hb : ∀ a ∈ as, a.name.Beside)
    {r : Except DirectoryError Unit} (h : d.save t cwd as = (t', r)) :
    ∃ after, d.load t' cwd = .ok after ∧ d.LoadsAfter cwd t as before after r := by
  by_cases hr : t.isDir cwd d.root = true
  · exact ((loadable_iff hk hr).mpr ⟨before, hload⟩).load_after hd hsep hb h hload
  · obtain ⟨hnew, hlists⟩ := hthere.resolve_left hr
    rw [load_of_not_isDir (eq_false_of_ne_true hr) hnew.file?] at hload
    obtain rfl := Except.ok.inj hload
    -- nothing was loaded before, for the directory is missing or empty
    have hroom := roomier_makeDirs t cwd d.root
    have hbefore : ∀ a, a ∈ [] ↔ ∃ parts, d.LoadsFrom cwd t parts a := fun a =>
      ⟨fun h => absurd h List.not_mem_nil, fun h => absurd h hnew.not_loadsFrom⟩
    have hunmade := hnew.load_unmade hk hlists
    cases hmake : t.makeDirs cwd d.root with
    | mk u made =>
      cases made with
      | error e =>
        unfold save at h
        rw [hmake] at h hunmade
        obtain ⟨rfl, rfl⟩ := Prod.mk.inj h
        refine ⟨[], hunmade, .of_from hbefore fun e _ => ⟨[], as, rfl, id, fun a => ?_⟩⟩
        rw [fromOthers_nil, or_iff_left fromWritten_nil]
        exact hbefore a
      | ok _ =>
        -- once it is made, this is the save of a directory that loads as nothing
        obtain ⟨hroot, hsame⟩ := save_of_makeDirs hd.root hmake as
        rw [hsame] at h
        rw [hmake] at hroom hunmade
        obtain ⟨after, hafter, hloads⟩ :=
          ((loadable_iff (hroom.keyed hk) hroot).mpr ⟨[], hunmade⟩).load_after hd hsep hb h hunmade
        refine ⟨after, hafter, .of_from hbefore fun e he => ?_⟩
        obtain ⟨written, rest, has, hrest, hafter, -⟩ := hloads.failed e he
        refine ⟨written, rest, has, hrest, fun a => ?_⟩
        rw [hafter, from_congr fun parts => hroom.file? _]

namespace Example

/-- A directory with the file of `c`, in which there is a directory where the file of `b` would be. -/
def blocked : FileTree :=
  ⟨[(["s"], .dir), (["s", "b.bin"], .dir), (["s", "c.bin"], .file ⟨#[0]⟩)]⟩

def halfSaved : FileTree :=
  (directory.save blocked [] [a, b]).1

theorem save_blocked : directory.save blocked [] [a, b] =
    (halfSaved, .error (.file "write" ⟨"/s/b.bin"⟩ .isDirectory)) :=
  save_mk (by decide +kernel)

theorem load_blocked : directory.load blocked [] = .ok [plain "c"] := by
  have hlook : blocked.look [] directory.root = .ok (["s"], .dir) := by decide +kernel
  have hprocessors : directory.readList blocked [] processorsFile = .ok [] := by decide +kernel
  have hnames : directory.readList blocked [] namesFile = .ok [] := by decide +kernel
  exact load_of_sorted hlook hprocessors hnames (entriesBelow_of_pairwise (by decide +kernel))
      (by decide +kernel) (by simp)

end Example

open Example in
theorem load_after_save_blocked : ∃ after, directory.load halfSaved [] = .ok after ∧
    directory.LoadsAfter [] blocked [a, b] [plain "c"] after
      (.error (.file "write" ⟨"/s/b.bin"⟩ .isDirectory)) := by
  have hd : directory.Sound :=
    ⟨by decide, stem_of_all (by decide +kernel) (by decide +kernel)⟩
  exact load_after_save hd (by decide +kernel) (by decide) (Or.inl (by decide +kernel)) load_blocked
    (by decide +kernel) save_blocked

namespace Example

/-- What is left of saving a name that makes a directory of the list of names. -/
def unlistable : FileTree :=
  (directory.save .empty [] [underList]).1

def spaced : ArtifactDirectory :=
  { directory with separator := ' ' }

def halfSpaced : FileTree :=
  (spaced.save blocked [] [plain "x/y", b]).1

end Example

open Example in
/-- A save that fails leaves the artifacts there that it has written. They are loaded, or keep others
from being loaded if the separator makes no name of their paths. And a name whose first segment is the
name of a list makes a directory that cannot be read as one. -/
theorem failed_save_changes_load :
    (directory.load blocked [] = .ok [plain "c"] ∧
      directory.save blocked [] [a, b] =
        (halfSaved, .error (.file "write" ⟨"/s/b.bin"⟩ .isDirectory)) ∧
      directory.load halfSaved [] = .ok [a, plain "c"]) ∧
    (directory.load .empty [] = .ok [] ∧
      directory.save .empty [] [underList] =
        (unlistable, .error (.file "read list" ⟨"/s/NAMES"⟩ .isDirectory)) ∧
      ¬ ∃ as, directory.load unlistable [] = .ok as) ∧
    (spaced.load blocked [] = .ok [plain "c"] ∧
      spaced.save blocked [] [plain "x/y", b] =
        (halfSpaced, .error (.file "write" ⟨"/s/b.bin"⟩ .isDirectory)) ∧
      ¬ ∃ as, spaced.load halfSpaced [] = .ok as) := by
  refine ⟨⟨load_blocked, save_blocked, ?_⟩, ⟨?_, save_mk (by decide +kernel), ?_⟩,
    ⟨?_, save_mk (by decide +kernel), ?_⟩⟩
  · have hlook : halfSaved.look [] directory.root = .ok (["s"], .dir) := by decide +kernel
    have hprocessors : directory.readList halfSaved [] processorsFile = .ok [] := by decide +kernel
    have hnames : directory.readList halfSaved [] namesFile = .ok [] := by decide +kernel
    exact load_of_sorted hlook hprocessors hnames (entriesBelow_of_pairwise (by decide +kernel))
      (by decide +kernel)
      (by decide +kernel)
  · exact load_of_not_isDir (by decide +kernel) (by decide +kernel)
  · rw [load_none_iff (by decide +kernel) (by decide +kernel)]
    rintro ⟨⟨lines, hlines⟩, -⟩
    -- a directory stands where the list is read
    have herror : (directory.readList unlistable [] namesFile).isOk = false := by decide +kernel
    rw [hlines] at herror
    cases herror
  · have hlook : blocked.look [] spaced.root = .ok (["s"], .dir) := by decide +kernel
    have hprocessors : spaced.readList blocked [] processorsFile = .ok [] := by decide +kernel
    have hnames : spaced.readList blocked [] namesFile = .ok [] := by decide +kernel
    exact load_of_sorted hlook hprocessors hnames (entriesBelow_of_pairwise (by decide +kernel))
      (by decide +kernel) (by simp)
  · rw [load_none_iff (by decide +kernel) (by decide +kernel)]
    rintro ⟨-, -, -, hnameable⟩
    -- the segments of `x/y` make no name with this separator
    obtain ⟨n, hn⟩ := hnameable ["x", "y.bin"] ⟨#[0]⟩ (by decide +kernel) (by decide +kernel)
      (reached_none.mpr (by decide +kernel))
    have herror : (spaced.nameAt halfSpaced [] ["x", "y.bin"]).isOk = false := by decide +kernel
    rw [hn] at herror
    cases herror

end OnDemand.ArtifactDirectory
