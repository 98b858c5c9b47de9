import Mathlib.Data.List.Nodup
import OnDemand.Command.Build
import OnDemand.Proofs.ArtifactDirectory.Loading

/-!
# What a compiler run has made

Each file below the output directory that has the extension of artifacts and can be reached is collected
as one artifact (`Collected`). A file has the name of the unit whose segments lead to it, else of the
last listed name with these segments, else a name made of the parts of its path (`NamedBy`). Collecting
fails where a list cannot be read, a directory cannot be opened, a file cannot be read or a name made of a
path is none, and only there (`collect_spec`). That paths must not be too long counts:
`collect_stops_at_long_paths`.
-/

namespace OnDemand

namespace CommandForm

open FileTree ArtifactDirectory

/-! ## What is collected -/

/-- The names that a list below a directory says. A line that is blank, a comment or no name says
none. -/
def listedNames (t : FileTree) (dir : Location) (file : String) : List Name :=
  match (t.file? (dir ++ [file])).bind String.fromUTF8? with
  | some text => (listed text).filterMap Name.parse?
  | none => []

/-- The file that some parts lead to from a directory, if it has the extension of artifacts. -/
def Made (f : CommandForm) (t : FileTree) (dir : Location) (parts : List String)
    (bytes : ByteArray) : Prop :=
  t.file? (dir ++ parts) = some bytes ∧
    ∃ last, parts.getLast? = some last ∧ Path.extension? ⟨last⟩ = some f.artifactExtension

def joined (f : CommandForm) (parts : List String) : String :=
  (String.ofList [f.separator]).intercalate parts

/-- How a file is named, by the way to it without its extension: after the unit that has these
segments, else after the last listed name that has them, else after the way itself. -/
structure NamedBy (f : CommandForm) (units : List SourceUnit) (listed : List Name)
    (bare : List String) (n : Name) : Prop where
  ofUnit : ∀ u ∈ units, u.name.segments = bare → n = u.name
  ofList : (∀ u ∈ units, u.name.segments ≠ bare) → ∀ before m after, listed = before ++ m :: after →
    m.segments = bare → (∀ k ∈ after, k.segments ≠ bare) → n = m
  ofPath : (∀ u ∈ units, u.name.segments ≠ bare) → (∀ m ∈ listed, m.segments ≠ bare) →
    n.text = f.joined bare

/-- Neither a unit nor a list has a name for a file, and its path makes none. -/
structure Unnamed (f : CommandForm) (units : List SourceUnit) (listed : List Name)
    (bare : List String) : Prop where
  noUnit : ∀ u ∈ units, u.name.segments ≠ bare
  notListed : ∀ m ∈ listed, m.segments ≠ bare
  noPath : ¬ Name.WellFormed (f.joined bare)

/-- The operating system goes the way from the output directory through some parts: the path is not too
long, and no directory on the way is closed. -/
def Reached (s : Staging) (deny : Denials) (parts : List String) : Prop :=
  (s.output.joinAll parts).text.utf8ByteSize < 4096 ∧
    ∀ ps, ps <+: parts → ps ≠ parts → ps ∉ deny.passing

/-- What is collected from a directory. -/
structure Collected (f : CommandForm) (t : FileTree) (dir : Location) (s : Staging)
    (units : List SourceUnit) (deny : Denials) (as : List Artifact) : Prop where
  sorted : as.Pairwise fun a b => ¬ b.name < a.name
  files : ∃ files : List (List String × ByteArray), (files.map (·.1)).Nodup ∧
    (∀ parts bytes, (parts, bytes) ∈ files ↔ f.Made t dir parts bytes ∧ Reached s deny parts) ∧
    List.Forall₂ (fun file a => a.payload = file.2 ∧
      f.NamedBy units (listedNames t dir namesFile) (bareParts file.1) a.name ∧
      (a.isProcessor = true ↔
        ∃ n ∈ listedNames t dir processorsFile, n.segments = bareParts file.1)) files as

/-- What keeps the artifacts in a directory from being collected: a list or a file that may not be read, a
directory that may not be opened or is too deep, and a file without a name. -/
inductive Obstacle (f : CommandForm) (t : FileTree) (dir : Location) (s : Staging)
    (units : List SourceUnit) (deny : Denials) : Prop where
  | list {file : String} (hfile : file = namesFile ∨ file = processorsFile)
      (h : [] ∈ deny.passing ∨ [file] ∈ deny.opening ∧ t.entry? (dir ++ [file]) ≠ none)
  | directory {parts : List String} (hdir : t.entry? (dir ++ parts) = some .dir)
      (h : ¬ Reached s deny parts ∨ parts ∈ deny.opening)
  | file {parts : List String} {bytes : ByteArray} (hmade : f.Made t dir parts bytes)
      (hreached : Reached s deny parts) (h : parts ∈ deny.opening)
  | name {parts : List String} {bytes : ByteArray} (hmade : f.Made t dir parts bytes)
      (hreached : Reached s deny parts)
      (h : f.Unnamed units (listedNames t dir namesFile) (bareParts parts))

/-! ## Names -/

variable {f : CommandForm} {t : FileTree} {cwd : Location} {dir : Path} {units : List SourceUnit}
  {as : List Artifact} {parts : List String} {lines : List String} {s : Staging} {deny : Denials}

theorem isArtifactFile_iff (dir : Path) (known : List Name) :
    (f.directory dir known).isArtifactFile parts = true ↔
      ∃ last, parts.getLast? = some last ∧ Path.extension? ⟨last⟩ = some f.artifactExtension := by
  unfold isArtifactFile
  cases parts.getLast? <;> simp [directory]

theorem listedNames_eq (t : FileTree) (cwd : Location) (dir : Path) (known : List Name)
    (file : String) : ((f.directory dir known).listAt t cwd file).filterMap Name.parse? =
      listedNames t ((f.directory dir known).location cwd) file := by
  unfold listAt listedNames
  cases (t.file? ((f.directory dir known).location cwd ++ [file])).bind String.fromUTF8? <;> rfl

theorem nameFor_cases (root : Path) (units : List SourceUnit) (lines parts : List String) :
    let d := f.directory root (units.map (·.name))
    let listed := lines.filterMap Name.parse?
    (∃ u ∈ units, u.name.segments = bareParts parts ∧
        d.nameFor (d.nameIndex lines) parts = .ok u.name) ∨
      (∀ u ∈ units, u.name.segments ≠ bareParts parts) ∧
        ((∃ before n after, listed = before ++ n :: after ∧ n.segments = bareParts parts ∧
            (∀ m ∈ after, m.segments ≠ bareParts parts) ∧
            d.nameFor (d.nameIndex lines) parts = .ok n) ∨
          (∀ m ∈ listed, m.segments ≠ bareParts parts) ∧
            ∀ n, d.nameFor (d.nameIndex lines) parts = .ok n ↔ n.text = f.joined (bareParts parts)) := by
  intro d listed
  -- units come before the list, and in either the last name with these segments counts
  have hlookup : (d.nameIndex lines).lookup (bareParts parts) =
      ((units.map (·.name)).reverse.find? (·.segments = bareParts parts)).or
        (listed.reverse.find? (·.segments = bareParts parts)) := lookup_nameIndex_eq lines _
  cases hunit : (units.map (·.name)).reverse.find? (·.segments = bareParts parts) with
  | some n =>
    have hmem := List.mem_of_find?_eq_some hunit
    obtain ⟨u, hu, rfl⟩ := List.mem_map.mp (List.mem_reverse.mp hmem)
    rw [hunit, Option.some_or] at hlookup
    exact Or.inl ⟨u, hu, by simpa using List.find?_some hunit, nameFor_of_lookup hlookup⟩
  | none =>
    rw [hunit, Option.none_or] at hlookup
    refine Or.inr ⟨by simpa using hunit, ?_⟩
    cases hlisted : listed.reverse.find? (·.segments = bareParts parts) with
    | some n =>
      rw [hlisted] at hlookup
      obtain ⟨hn, before, after, hsplit, hafter⟩ := find?_reverse_eq_some.mp hlisted
      exact Or.inl ⟨before, n, after, hsplit, by simpa using hn, by simpa using hafter,
        nameFor_of_lookup hlookup⟩
    | none =>
      rw [hlisted] at hlookup
      exact Or.inr ⟨by simpa using hlisted, fun n => nameFor_of_lookup_eq_none hlookup⟩

theorem last_unique {listed before before' after after' : List Name} {n m : Name} {bare : List String}
    (hsplit : listed = before ++ n :: after) (hn : n.segments = bare)
    (hafter : ∀ k ∈ after, k.segments ≠ bare) (hsplit' : listed = before' ++ m :: after')
    (hm : m.segments = bare) (hafter' : ∀ k ∈ after', k.segments ≠ bare) : n = m := by
  have hfirst : listed.reverse.find? (·.segments = bare) = some n :=
    find?_reverse_eq_some.mpr ⟨by simpa using hn, before, after, hsplit, by simpa using hafter⟩
  have hsecond : listed.reverse.find? (·.segments = bare) = some m :=
    find?_reverse_eq_some.mpr ⟨by simpa using hm, before', after', hsplit', by simpa using hafter'⟩
  exact Option.some.inj (hfirst.symm.trans hsecond)

theorem namedBy_of_nameFor (hunits : (units.map (·.name.segments)).Nodup) {root : Path} {n : Name}
    (h : (f.directory root (units.map (·.name))).nameFor
      ((f.directory root (units.map (·.name))).nameIndex lines) parts = .ok n) :
    f.NamedBy units (lines.filterMap Name.parse?) (bareParts parts) n := by
  rcases nameFor_cases (f := f) root units lines parts with
    ⟨u, hu, hsegments, hname⟩ |
      ⟨hunit, ⟨before, m, after, hsplit, hm, hafter, hname⟩ | ⟨hlisted, hpath⟩⟩
  · obtain rfl : n = u.name := Except.ok.inj (h.symm.trans hname)
    refine ⟨fun v hv hsame => ?_, fun hnone => ?_, fun hnone => ?_⟩
    · rw [List.inj_on_of_nodup_map hunits hv hu (hsame.trans hsegments.symm)]
    · exact absurd hsegments (hnone u hu)
    · exact absurd hsegments (hnone u hu)
  · obtain rfl : n = m := Except.ok.inj (h.symm.trans hname)
    refine ⟨fun v hv hsame => absurd hsame (hunit v hv), fun _ => ?_, fun _ hnone => ?_⟩
    · exact fun before' m' after' hsplit' hm' hafter' => last_unique hsplit hm hafter hsplit' hm' hafter'
    · exact absurd hm (hnone n (hsplit ▸ by simp))
  · refine ⟨fun v hv hsame => absurd hsame (hunit v hv), fun _ => ?_, fun _ _ => (hpath n).mp h⟩
    rintro before m after hsplit hm -
    exact absurd hm (hlisted m (hsplit ▸ by simp))

theorem unnamed_iff {root : Path} : (¬ ∃ n, (f.directory root (units.map (·.name))).nameFor
      ((f.directory root (units.map (·.name))).nameIndex lines) parts = .ok n) ↔
    f.Unnamed units (lines.filterMap Name.parse?) (bareParts parts) := by
  rcases nameFor_cases (f := f) root units lines parts with
    ⟨u, hu, hsegments, hname⟩ |
      ⟨hunit, ⟨before, m, after, hsplit, hm, hafter, hname⟩ | ⟨hlisted, hpath⟩⟩
  · exact iff_of_false (fun h => h ⟨_, hname⟩) fun h => h.noUnit u hu hsegments
  · exact iff_of_false (fun h => h ⟨_, hname⟩) fun h => h.notListed m (hsplit ▸ by simp) hm
  · simp only [hpath]
    constructor
    · exact fun h => ⟨hunit, hlisted, fun hwell => h ⟨⟨_, hwell⟩, rfl⟩⟩
    · rintro h ⟨n, hn⟩
      exact h.noPath (hn ▸ n.wellFormed)

/-! ## Collecting -/

theorem reached_iff (f : CommandForm) (s : Staging) (units : List SourceUnit) (deny : Denials)
    (parts : List String) : (f.directory s.output (units.map (·.name))).Reached deny parts ↔
      Reached s deny parts := by
  rw [ArtifactDirectory.reached_iff, Path.tooLong_eq_false]
  exact Iff.rfl

theorem unopened?_eq_none : (f.directory s.output (units.map (·.name))).unopened? deny parts = none ↔
    Reached s deny parts ∧ parts ∉ deny.opening := by
  rw [← reached_iff f s units, unopened?, Option.or_eq_none_iff]
  simp [ArtifactDirectory.Reached]

theorem collected_of_collect (hk : t.Keyed) (hunits : (units.map (·.name.segments)).Nodup)
    (hr : t.isDir cwd s.output = true) (h : f.collect t cwd s units deny = .ok as) :
    f.Collected t (destination cwd s.output.components) s units deny as := by
  have hload : (f.directory s.output (units.map (·.name))).load t cwd deny = .ok as := h
  have hroot : t.isDir cwd (f.directory s.output (units.map (·.name))).root = true := hr
  refine ⟨sorted_load hroot hload, ?_⟩
  obtain ⟨files, hnodup, hmem, hfiles⟩ := forall₂_load hk hroot hload
  refine ⟨files, hnodup, fun parts bytes => ?_, hfiles.imp fun file a => ?_⟩
  · rw [hmem, isArtifactFile_iff, reached_iff, ← and_assoc]
    exact Iff.rfl
  · rintro ⟨n, hname, rfl⟩
    rw [payload_artifactOf, name_artifactOf, isProcessor_artifactOf]
    have hnamed := namedBy_of_nameFor hunits hname
    rw [listedNames_eq] at hnamed
    refine ⟨rfl, hnamed, ?_⟩
    simp only [marked, List.contains_eq_mem, decide_eq_true_eq, List.mem_map, listedNames_eq]
    exact Iff.rfl

/-- An obstacle is what keeps a list, a directory or a file from being read, or a file from getting a
name. -/
theorem obstacle_iff :
    let d := f.directory s.output (units.map (·.name))
    f.Obstacle t (destination cwd s.output.components) s units deny ↔
      ¬ (d.Granted t cwd deny namesFile ∧ d.Granted t cwd deny processorsFile ∧
        d.Walkable t cwd deny ∧ d.Openable t cwd deny ∧ d.Nameable t cwd deny) := by
  intro d
  have hfile : ∀ {parts bytes}, f.Made t (destination cwd s.output.components) parts bytes ∧
      Reached s deny parts ↔ t.file? (d.location cwd ++ parts) = some bytes ∧
        d.isArtifactFile parts = true ∧ d.Reached deny parts := by
    intro parts bytes
    rw [isArtifactFile_iff, reached_iff, ← and_assoc]
    exact Iff.rfl
  have hunnamed : ∀ parts, (¬ ∃ n, d.nameAt t cwd parts = .ok n) ↔
      f.Unnamed units (listedNames t (destination cwd s.output.components) namesFile)
        (bareParts parts) := by
    intro parts
    rw [nameAt, unnamed_iff, listedNames_eq]
    exact Iff.rfl
  constructor
  · rintro ho ⟨hnames, hprocessors, hwalk, hopen, hname⟩
    cases ho with
    | list hlist h =>
      have hgranted : ∀ {file}, d.Granted t cwd deny file → ¬ ([] ∈ deny.passing ∨
          [file] ∈ deny.opening ∧ t.entry? (d.location cwd ++ [file]) ≠ none) := by
        rintro file ⟨hpass, hopen⟩ (h | ⟨hmem, hthere⟩)
        · exact hpass h
        · exact hthere (hopen hmem)
      rcases hlist with rfl | rfl
      · exact hgranted hnames h
      · exact hgranted hprocessors h
    | directory hdir h =>
      obtain ⟨hreached, hmem⟩ := unopened?_eq_none.mp (hwalk _ hdir)
      exact h.elim (fun h => h hreached) hmem
    | file hmade hreached h =>
      obtain ⟨hthere, hparts, hreached⟩ := hfile.mp ⟨hmade, hreached⟩
      exact hopen _ _ hthere hparts hreached h
    | name hmade hreached h =>
      obtain ⟨hthere, hparts, hreached⟩ := hfile.mp ⟨hmade, hreached⟩
      exact (hunnamed _).mpr h (hname _ _ hthere hparts hreached)
  · -- without an obstacle all five hold, one kind of obstacle for each
    intro h
    by_contra ho
    have hlist : ∀ {file}, file = namesFile ∨ file = processorsFile → d.Granted t cwd deny file := by
      intro file hfile
      refine ⟨fun hpass => ho (.list hfile (Or.inl hpass)), fun hmem => ?_⟩
      by_contra hthere
      exact ho (.list hfile (Or.inr ⟨hmem, hthere⟩))
    refine h ⟨hlist (Or.inl rfl), hlist (Or.inr rfl), fun parts hdir => ?_,
      fun parts bytes hthere hparts hreached hmem => ?_, fun parts bytes hthere hparts hreached => ?_⟩
    · refine unopened?_eq_none.mpr ⟨?_, fun hmem => ho (.directory hdir (Or.inr hmem))⟩
      by_contra hreached
      exact ho (.directory hdir (Or.inl hreached))
    · obtain ⟨hmade, hreached⟩ := hfile.mpr ⟨hthere, hparts, hreached⟩
      exact ho (.file hmade hreached hmem)
    · obtain ⟨hmade, hreached⟩ := hfile.mpr ⟨hthere, hparts, hreached⟩
      by_contra hname
      exact ho (.name hmade hreached ((hunnamed parts).mp hname))

theorem collect_eq_error_iff (hk : t.Keyed) (units : List SourceUnit) (deny : Denials) :
    (∃ e, f.collect t cwd s units deny = .error e) ↔ t.pathExists cwd s.output = true ∧
      (t.Unreadable cwd (s.output.join ⟨namesFile⟩) ∨
        t.Unreadable cwd (s.output.join ⟨processorsFile⟩) ∨
        ∃ dir, t.look cwd s.output = .ok (dir, .dir) ∧ f.Obstacle t dir s units deny) := by
  refine (load_eq_error_iff (d := f.directory s.output (units.map (·.name))) hk cwd deny).trans
    (and_congr_right fun _ => or_congr_right (or_congr_right ?_))
  constructor
  · rintro ⟨hr, h⟩
    exact ⟨_, look_of_isDir (d := f.directory s.output (units.map (·.name))) hr,
      obstacle_iff.mpr h⟩
  · rintro ⟨dir, hlook, h⟩
    have hr : t.isDir cwd s.output = true := by simp [isDir, hlook]
    have hroot := look_of_isDir (d := f.directory s.output (units.map (·.name))) hr
    obtain rfl := (Prod.mk.inj (Except.ok.inj (hlook.symm.trans hroot))).1
    exact ⟨hr, obstacle_iff.mp h⟩

/-- The artifacts of a run are those of the files with the extension of artifacts that the compiler left
in the output directory and that can be reached, by name and each with its name, its bytes and its mark;
a missing directory has none. They are all collected unless a list cannot be read or there is another
obstacle. -/
theorem collect_spec (f : CommandForm) (t : FileTree) (cwd : Location) (s : Staging)
    (units : List SourceUnit) (deny : Denials) (hk : t.Keyed)
    (hunits : (units.map (·.name.segments)).Nodup) :
    (∀ as, f.collect t cwd s units deny = .ok as →
      t.pathExists cwd s.output = false ∧ as = [] ∨
        ∃ dir, t.look cwd s.output = .ok (dir, .dir) ∧ f.Collected t dir s units deny as) ∧
    ((∃ e, f.collect t cwd s units deny = .error e) ↔ t.pathExists cwd s.output = true ∧
      (t.Unreadable cwd (s.output.join ⟨namesFile⟩) ∨
        t.Unreadable cwd (s.output.join ⟨processorsFile⟩) ∨
        ∃ dir, t.look cwd s.output = .ok (dir, .dir) ∧ f.Obstacle t dir s units deny)) := by
  refine ⟨fun as h => ?_, collect_eq_error_iff hk units deny⟩
  -- nothing, a directory or a file stands at the path of the output
  cases hlook : t.look cwd s.output with
  | error err =>
    refine Or.inl ⟨by simp [pathExists, hlook, Except.toOption], ?_⟩
    unfold collect load directory at h
    simp only [hlook] at h
    exact (Except.ok.inj h).symm
  | ok at' =>
    obtain ⟨l, entry⟩ := at'
    cases entry with
    | dir =>
      have hr : t.isDir cwd s.output = true := by simp [isDir, hlook]
      have hroot := look_of_isDir (d := f.directory s.output (units.map (·.name))) hr
      obtain rfl := (Prod.mk.inj (Except.ok.inj (hlook.symm.trans hroot))).1
      exact Or.inr ⟨_, rfl, collected_of_collect hk hunits hr h⟩
    | file bytes =>
      obtain ⟨e, he⟩ := (collect_eq_error_iff (f := f) hk units deny).mpr
        ⟨by simp [pathExists, hlook, Except.toOption],
          Or.inl (unreadable_below_file stem_namesFile.part hlook)⟩
      cases h.symm.trans he

namespace Example

def form : CommandForm :=
  ⟨[], "-p", "-o", none, "src", "bin", '/', true⟩

def staging : Staging :=
  ⟨⟨"/s"⟩⟩

def unit : SourceUnit :=
  ⟨⟨"k.l", by decide +kernel⟩, "", .remote⟩

/-- The file of a unit that is listed in another spelling, that of a listed name, and one whose name has a
dot. -/
def made : FileTree :=
  ⟨[(["s"], .dir), (["s", "out"], .dir), (["s", "out", "NAMES"], .file "# made\nk/l\nc/d\n c.d\n".toUTF8),
    (["s", "out", "PROCESSORS"], .file "k/l\n".toUTF8), (["s", "out", "c"], .dir),
    (["s", "out", "c", "d.bin"], .file ⟨#[1]⟩), (["s", "out", "f.g.bin"], .file ⟨#[2]⟩),
    (["s", "out", "k"], .dir), (["s", "out", "k", "l.bin"], .file ⟨#[0]⟩)]⟩

def unnamable : FileTree :=
  ⟨[(["s"], .dir), (["s", "out"], .dir), (["s", "out", ".h.bin"], .file ⟨#[0]⟩)]⟩

def artifacts : List Artifact :=
  [.plain ⟨"c.d", by decide +kernel⟩ ⟨#[1]⟩, .plain ⟨"f.g", by decide +kernel⟩ ⟨#[2]⟩,
    (Artifact.plain unit.name ⟨#[0]⟩).withCapability .extensionProcessor]

theorem collect_made : form.collect made [] staging [unit] .none = .ok artifacts := by
  have hlook : made.look [] ⟨"/s/out"⟩ = .ok (["s", "out"], .dir) := by decide +kernel
  have hprocessors : (form.directory ⟨"/s/out"⟩ [unit.name]).readList made [] processorsFile =
      .ok ["k/l"] := by decide +kernel
  have hnames : (form.directory ⟨"/s/out"⟩ [unit.name]).readList made [] namesFile =
      .ok ["k/l", "c/d", "c.d"] := by decide +kernel
  exact load_of_sorted (d := form.directory ⟨"/s/out"⟩ [unit.name]) hlook hprocessors hnames
    (entriesBelow_of_pairwise (by decide +kernel)) (by decide +kernel) (by decide +kernel)

end Example

open Example in
theorem collect_spec_made :
    (∃ dir, made.look [] staging.output = .ok (dir, .dir) ∧
      form.Collected made dir staging [unit] .none artifacts) ∧
      (∃ e, form.collect unnamable [] staging [unit] .none = .error e) ∧
      ∃ e, form.collect made [] staging [unit] ⟨[["c"]], []⟩ = .error e := by
  have hmade := fun deny => collect_spec form made [] staging [unit] deny (by decide +kernel)
    (by decide +kernel)
  have hunnamable := collect_spec form unnamable [] staging [unit] .none (by decide +kernel)
    (by decide +kernel)
  refine ⟨?_, ?_, ?_⟩
  · rcases (hmade .none).1 _ collect_made with ⟨-, hnone⟩ | hcollected
    · cases hnone
    · exact hcollected
  · refine hunnamable.2.mpr ⟨by decide +kernel, Or.inr (Or.inr ⟨["s", "out"], by decide +kernel, ?_⟩)⟩
    have hhidden : form.Made unnamable ["s", "out"] [".h.bin"] ⟨#[0]⟩ :=
      ⟨by decide +kernel, ".h.bin", rfl, by decide +kernel⟩
    exact .name hhidden ⟨by decide +kernel, by simp [Denials.none]⟩
      ⟨by decide +kernel, by decide +kernel, by decide +kernel⟩
  · refine (hmade ⟨[["c"]], []⟩).2.mpr
      ⟨by decide +kernel, Or.inr (Or.inr ⟨["s", "out"], by decide +kernel, ?_⟩)⟩
    have hclosed : made.entry? (["s", "out"] ++ ["c"]) = some .dir := by decide +kernel
    exact .directory hclosed (Or.inr (by decide))

/-! ## Long paths -/

namespace Example

/-- A directory for each name on a way below the output directory, and something at its end. -/
def along (way : List String) (e : Entry) : FileTree :=
  ⟨(["s"], .dir) :: (["s", "out"], .dir) :: (List.range way.length).map fun i =>
    (["s", "out"] ++ way.take (i + 1), if i + 1 = way.length then e else .dir)⟩

@[irreducible]
def letters (n : Nat) : String :=
  String.ofList (List.replicate n 'a')

def deep (n : Nat) : List String :=
  List.replicate n (letters 255)

def wayToFile : List String :=
  deep 15 ++ [letters 251 ++ "." ++ "bin"]

section
variable {way : List String} {e e' : Entry}

theorem keyed_along (way : List String) (e : Entry) : (along way e).Keyed := by
  have hlengths : ((along way e).entries.map fun f => f.1.length) =
      (List.range (way.length + 2)).map (· + 1) := by
    simp only [along, List.range_succ_eq_map, List.map_cons, List.map_map]
    refine congrArg _ (congrArg _ (List.map_congr_left fun i hi => ?_))
    have := List.mem_range.mp hi
    simp only [Function.comp_apply, List.length_append, List.length_cons, List.length_nil,
      List.length_take]
    omega
  have hnodup : ((along way e).entries.map fun f => f.1.length).Nodup := by
    rw [hlengths]
    exact List.nodup_range.map fun _ _ h => Nat.add_right_cancel h
  rw [Keyed]
  refine List.Nodup.of_map List.length ?_
  rwa [List.map_map]

theorem entry?_along : FileTree.entry? (along way e) (["s", "out"] ++ parts) = some e' ↔
    parts = [] ∧ e' = .dir ∨
      parts ≠ [] ∧ parts <+: way ∧ e' = if parts = way then e else .dir := by
  -- the directories on the way are its beginnings, one of each length
  have hway : (∃ i, i < way.length ∧ way.take (i + 1) = parts ∧
      (if i + 1 = way.length then e else .dir) = e') ↔
      parts ≠ [] ∧ parts <+: way ∧ e' = if parts = way then e else .dir := by
    constructor
    · rintro ⟨i, hi, rfl, rfl⟩
      refine ⟨List.ne_nil_of_length_pos (by rw [List.length_take]; omega), List.take_prefix _ _, ?_⟩
      refine if_congr ⟨fun h => ?_, fun h => ?_⟩ rfl rfl
      · rw [h]
        exact List.take_length
      · have hlength := congrArg List.length h
        rw [List.length_take] at hlength
        omega
    · rintro ⟨hne, hpre, rfl⟩
      have hpos := List.length_pos_of_ne_nil hne
      have hle := hpre.length_le
      refine ⟨parts.length - 1, by omega, ?_, ?_⟩
      · rw [Nat.sub_add_cancel hpos]
        exact (List.prefix_iff_eq_take.mp hpre).symm
      · rw [Nat.sub_add_cancel hpos]
        exact if_congr ⟨hpre.eq_of_length, congrArg _⟩ rfl rfl
  unfold FileTree.entry?
  rw [if_neg (by simp), lookup_eq_some_iff _ _ (keyed_along way e), ← hway]
  simp [along, eq_comm]

theorem isDir_along (way : List String) (e : Entry) : (along way e).isDir [] staging.output = true := by
  have hloc : (along way e).locate [] staging.output = .ok ["s", "out"] := rfl
  exact isDir_iff.mpr ⟨_, hloc, entry?_along.mpr (Or.inl ⟨rfl, rfl⟩)⟩

theorem look_along (way : List String) (e : Entry) :
    (along way e).look [] staging.output = .ok (["s", "out"], .dir) :=
  look_of_isDir (d := form.directory staging.output []) (isDir_along way e)

theorem size_letters (n : Nat) : (letters n).utf8ByteSize = n := by
  unfold letters
  induction n with
  | zero => rfl
  | succ n ih =>
    have hone : (String.singleton 'a').utf8ByteSize = 1 := rfl
    rw [List.replicate_succ, String.ofList_cons, String.utf8ByteSize_append, ih, hone]
    omega

theorem stem_letters {n : Nat} (hn : n ≠ 0) : Path.Stem (letters n) := by
  refine Path.stem_of_all (fun h => hn ?_) ?_
  · rw [← size_letters n, h]
    rfl
  · unfold letters
    rw [String.toList_ofList, List.all_replicate]
    simp [hn]

theorem lists_along (way : List String) (e : Entry) (hway : way.head? = some (letters 255)) :
    ¬ (along way e).Unreadable [] (staging.output.join ⟨namesFile⟩) ∧
      ¬ (along way e).Unreadable [] (staging.output.join ⟨processorsFile⟩) := by
  have hnone : ∀ {file : String}, file ≠ letters 255 →
      FileTree.entry? (along way e) (["s", "out"] ++ [file]) = none := by
    intro file hne
    refine Option.eq_none_iff_forall_ne_some.mpr fun e' h => ?_
    rcases entry?_along.mp h with ⟨hnil, -⟩ | ⟨-, ⟨rest, rfl⟩, -⟩
    · cases hnil
    · exact hne (Option.some.inj hway)
  have hsize : ∀ {file : String}, file.utf8ByteSize ≠ 255 → file ≠ letters 255 := by
    rintro file h rfl
    exact h (size_letters 255)
  exact ⟨not_unreadable_of_missing stem_namesFile.part (isDir_along way e) (by decide +kernel)
      (hnone (hsize (by decide +kernel))),
    not_unreadable_of_missing stem_processorsFile.part (isDir_along way e) (by decide +kernel)
      (hnone (hsize (by decide +kernel)))⟩

theorem size_output (hparts : ∀ s ∈ parts, Path.Part s) :
    (staging.output.joinAll parts).text.utf8ByteSize =
      6 + (parts.map fun s => s.utf8ByteSize + 1).sum :=
  Path.size_joinAll (by decide +kernel) (by decide +kernel) hparts

theorem part_of_mem_deep {n : Nat} {s : String} (h : s ∈ deep n) : Path.Part s := by
  rw [List.eq_of_mem_replicate h]
  exact (stem_letters (by decide)).part

theorem sum_deep (n : Nat) : ((deep n).map fun s => s.utf8ByteSize + 1).sum = n * 256 := by
  rw [deep, List.map_replicate, List.sum_replicate_nat, size_letters]

theorem size_deep (n : Nat) : (staging.output.joinAll (deep n)).text.utf8ByteSize = 6 + n * 256 := by
  rw [size_output fun _ => part_of_mem_deep, sum_deep]

theorem reached_deep {n : Nat} (hn : n < 16) : Reached staging .none (deep n) := by
  refine ⟨?_, by simp [Denials.none]⟩
  rw [size_deep]
  omega

theorem part_artifact {n : Nat} (hn : n ≠ 0) : Path.Part (letters n ++ "." ++ "bin") :=
  (stem_letters hn).part_append (Path.any_isSlash.mp (by decide +kernel))

theorem size_artifact (n : Nat) : (letters n ++ "." ++ "bin").utf8ByteSize = n + 4 := by
  rw [String.utf8ByteSize_append, String.utf8ByteSize_append, size_letters]
  rfl

theorem not_reached_wayToFile : ¬ Reached staging .none wayToFile := by
  rintro ⟨hsize, -⟩
  have hparts : ∀ s ∈ wayToFile, Path.Part s := by
    intro s hs
    rcases List.mem_append.mp hs with hs | hs
    · exact part_of_mem_deep hs
    · rw [List.mem_singleton.mp hs]
      exact part_artifact (by decide)
  rw [size_output hparts, wayToFile, List.map_append, List.sum_append, sum_deep] at hsize
  simp only [List.map_cons, List.map_nil, List.sum_cons, List.sum_nil, size_artifact] at hsize
  omega

theorem made_along {n : Nat} {bytes : ByteArray}
    (h : form.Made (along (deep n) .dir) ["s", "out"] parts bytes) : False := by
  rcases entry?_along.mp (file?_eq_some.mp h.1) with ⟨-, hfile⟩ | ⟨-, -, hfile⟩
  · cases hfile
  · rw [ite_self] at hfile
    cases hfile

theorem eq_wayToFile {bytes : ByteArray}
    (h : form.Made (along wayToFile (.file ⟨#[0]⟩)) ["s", "out"] parts bytes) : parts = wayToFile := by
  rcases entry?_along.mp (file?_eq_some.mp h.1) with ⟨-, hfile⟩ | ⟨-, -, hfile⟩
  · cases hfile
  · by_contra hne
    rw [if_neg hne] at hfile
    cases hfile

theorem reached_of_dir
    (h : FileTree.entry? (along wayToFile (.file ⟨#[0]⟩)) (["s", "out"] ++ parts) = some .dir) :
    Reached staging .none parts := by
  rcases entry?_along.mp h with ⟨rfl, -⟩ | ⟨-, hpre, hdir⟩
  · exact reached_deep (n := 0) (by decide)
  · rcases List.prefix_concat_iff.mp hpre with hway | hpre
    · rw [if_pos (show parts = wayToFile from hway)] at hdir
      cases hdir
    · obtain ⟨hlength, heq⟩ := List.prefix_replicate_iff.mp hpre
      rw [heq]
      exact reached_deep (by omega)

theorem collect_wayToFile :
    form.collect (along wayToFile (.file ⟨#[0]⟩)) [] staging [] .none = .ok [] := by
  have hlists := lists_along wayToFile (.file ⟨#[0]⟩) rfl
  -- nothing is denied, and a file that is too deep needs no name
  have hok : ¬ ∃ e, form.collect (along wayToFile (.file ⟨#[0]⟩)) [] staging [] .none = .error e := by
    rw [collect_eq_error_iff (keyed_along _ _)]
    rintro ⟨-, h | h | ⟨dir, hlook, h⟩⟩
    · exact hlists.1 h
    · exact hlists.2 h
    · obtain rfl := (Prod.mk.inj (Except.ok.inj ((look_along _ _).symm.trans hlook))).1
      cases h with
      | list _ h => simp [Denials.none] at h
      | directory hdir h => exact h.elim (fun h => h (reached_of_dir hdir)) (by simp [Denials.none])
      | file _ _ h => simp [Denials.none] at h
      | name hmade hreached _ => exact not_reached_wayToFile (eq_wayToFile hmade ▸ hreached)
  cases hcollect : form.collect (along wayToFile (.file ⟨#[0]⟩)) [] staging [] .none with
  | error e => exact absurd ⟨e, hcollect⟩ hok
  | ok as =>
    have hunits : (([] : List SourceUnit).map (·.name.segments)).Nodup := List.nodup_nil
    obtain ⟨-, files, -, hmem, hfiles⟩ :=
      collected_of_collect (keyed_along _ _) hunits (isDir_along _ _) hcollect
    have hnil : files = [] := by
      refine List.eq_nil_iff_forall_not_mem.mpr ?_
      rintro ⟨parts, bytes⟩ hfile
      obtain ⟨hmade, hreached⟩ := (hmem parts bytes).mp hfile
      exact not_reached_wayToFile (eq_wayToFile hmade ▸ hreached)
    rw [hnil] at hfiles
    cases hfiles
    rfl

end

end Example

open Example in
/-- A file below fifteen directories with the longest names is not collected, for its path is too long.
And sixteen of them make collecting fail, where no list is there and no file. -/
theorem collect_stops_at_long_paths :
    (form.collect (along wayToFile (.file ⟨#[0]⟩)) [] staging [] .none = .ok [] ∧
      form.Made (along wayToFile (.file ⟨#[0]⟩)) ["s", "out"] wayToFile ⟨#[0]⟩) ∧
    (∃ e, form.collect (along (deep 16) .dir) [] staging [] .none = .error e) ∧
      ¬ (along (deep 16) .dir).Unreadable [] (staging.output.join ⟨namesFile⟩) ∧
      ¬ (along (deep 16) .dir).Unreadable [] (staging.output.join ⟨processorsFile⟩) ∧
      ∀ parts bytes, ¬ form.Made (along (deep 16) .dir) ["s", "out"] parts bytes := by
  have hext : ∀ {n}, n ≠ 0 → Path.extension? ⟨letters n ++ "." ++ "bin"⟩ = some "bin" := fun hn =>
    Path.extension?_append (stem_letters hn) (Path.stem_of_all (by decide) (by decide +kernel))
  have hfile : (along wayToFile (.file ⟨#[0]⟩)).file? (["s", "out"] ++ wayToFile) = some ⟨#[0]⟩ :=
    file?_eq_some.mpr (entry?_along.mpr (Or.inr ⟨by decide, List.prefix_rfl, (if_pos rfl).symm⟩))
  have hlists := lists_along (deep 16) .dir rfl
  refine ⟨⟨collect_wayToFile, hfile, _, List.getLast?_concat, hext (by decide)⟩, ?_, hlists.1, hlists.2,
    fun _ _ => made_along⟩
  refine (collect_eq_error_iff (keyed_along _ _) [] .none).mpr
    ⟨by simp [pathExists, look_along, Except.toOption], Or.inr (Or.inr ⟨_, look_along _ _, ?_⟩)⟩
  have hend : FileTree.entry? (along (deep 16) .dir) (["s", "out"] ++ deep 16) = some .dir :=
    entry?_along.mpr (Or.inr ⟨by decide, List.prefix_rfl, (if_pos rfl).symm⟩)
  refine .directory hend (Or.inl fun h => ?_)
  have hsize := h.1
  rw [size_deep] at hsize
  omega

end CommandForm

end OnDemand
