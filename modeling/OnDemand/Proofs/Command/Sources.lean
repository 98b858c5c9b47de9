import Mathlib.Data.List.Forall2
import OnDemand.Proofs.Command.Staging

/-!
# What a compiler reads of its units

The sources of units are written one after the other into one directory, at places that only the
segments of their names decide (`Staged`). Nothing that is written after them is among them, so when the
compiler starts each path leads to the text of the last unit with its segments (`sources_kept_iff`).
Names with the same segments in another spelling share one file, and all but the last of their texts are
gone (`source_overwritten`).
-/

namespace OnDemand

namespace ArtifactDirectory

open FileTree OnDemand.Path

variable {d : ArtifactDirectory} {t t' : FileTree} {cwd l : Location}

theorem fileParts_inj {n m : Name} :
    d.fileParts n.segments = d.fileParts m.segments ↔ n.segments = m.segments := by
  refine ⟨fun h => ?_, fun h => by rw [h]⟩
  obtain ⟨init, last, hn, -, -⟩ := exists_segments_eq n
  obtain ⟨init', last', hm, -, -⟩ := exists_segments_eq m
  rw [hn, hm, fileParts_concat, fileParts_concat] at h
  obtain ⟨hinit, hlast⟩ := List.append_inj' h rfl
  have hlast : last.toList ++ (suffix d.extension).toList = last'.toList ++ (suffix d.extension).toList := by
    simpa using congrArg String.toList (List.cons.inj hlast).1
  rw [hn, hm, hinit, String.toList_inj.mp (List.append_cancel_right hlast)]

theorem file?_save (hne : d.root.text ≠ "") {as : List Artifact}
    (h : d.save t cwd as = (t', .ok ())) (hl : ¬ d.location cwd <+: l) : t'.file? l = t.file? l := by
  have hother : ∀ parts, d.location cwd ++ parts ≠ l := fun parts heq => hl ⟨parts, heq⟩
  cases hmake : t.makeDirs cwd d.root with
  | mk u r =>
    cases r with
    | error e =>
      unfold save at h
      rw [hmake] at h
      cases (Prod.mk.inj h).2
    | ok =>
      have hmade : u.file? l = t.file? l := by
        have hroom := roomier_makeDirs t cwd d.root
        rw [hmake] at hroom
        exact hroom.file? l
      obtain ⟨hroot, hsave⟩ := save_of_makeDirs hne hmake as
      cases save_cases hroot (hsave ▸ h) with
      | saved hwrote hnames hmarks =>
        rw [hmarks.others l (hother _).symm, hnames.others l (hother _).symm, hwrote.file?, hmade,
          List.find?_eq_none.mpr fun a _ => by simpa using hother _]
        rfl

end ArtifactDirectory

namespace Command

open FileTree OnDemand.Path

variable {c : Command} {f : CommandForm} {programs : Programs} {cwd l : Location}
  {t t' u v w : FileTree} {s : Staging} {units : List SourceUnit} {paths : List Path}
  {stored : List Artifact} {n m : Name} {p : Path}

def sourceAt (f : CommandForm) (cwd : Location) (s : Staging) (n : Name) : Location :=
  destination cwd s.root.components ++ "src" :: sourceParts f n

theorem sourceParts_inj : sourceParts f n = sourceParts f m ↔ n.segments = m.segments :=
  ArtifactDirectory.fileParts_inj

theorem sourceAt_inj : sourceAt f cwd s n = sourceAt f cwd s m ↔ n.segments = m.segments := by
  unfold sourceAt
  rw [List.append_cancel_left_eq, List.cons.injEq, eq_self, true_and, sourceParts_inj]

structure Placed (f : CommandForm) (cwd : Location) (s : Staging) (t : FileTree) (n : Name) : Prop where
  parts : ∀ r ∈ sourceParts f n, Part r
  located : t.locate cwd (sourceFile f s n) = .ok (sourceAt f cwd s n)

theorem Placed.kept (hk : t.DirsKept t') (h : Placed f cwd s t n) : Placed f cwd s t' n :=
  ⟨h.parts, locate_kept hk h.located⟩

theorem destination_sourceFile (hroot : t.isDir cwd s.root = true)
    (hparts : ∀ r ∈ sourceParts f n, Part r) :
    destination cwd (sourceFile f s n).components = sourceAt f cwd s n :=
  destination_below hroot (List.forall_mem_cons.mpr ⟨part_sources, hparts⟩)

theorem Placed.readText (h : Placed f cwd s t n) {text : String}
    (hfile : t.file? (sourceAt f cwd s n) = some text.toUTF8) :
    t.readText cwd (sourceFile f s n) = .ok text := by
  have hmeans : meansDirectory (sourceFile f s n) = false := by
    obtain hnil | ⟨init, last, hlast⟩ := (sourceParts f n).eq_nil_or_concat'
    · exact absurd hnil (sourceParts_ne_nil f n)
    · have hpart : Part last := h.parts last (by simp [hlast])
      unfold sourceFile
      rw [hlast, ← List.cons_append, joinAll_concat]
      exact meansDirectory_join _ hpart
  unfold FileTree.readText FileTree.read look
  simp only [h.located, file?_eq_some.mp hfile, hmeans, Bool.false_eq_true, if_false,
    ArtifactDirectory.fromUTF8?_toUTF8]

theorem sourceFile_inj (hn : Placed f cwd s t n) (hm : Placed f cwd s t m) :
    sourceFile f s n = sourceFile f s m ↔ n.segments = m.segments := by
  constructor
  · intro h
    have hsame := hn.located
    rw [h, hm.located] at hsame
    exact (sourceAt_inj.mp (Except.ok.inj hsame)).symm
  · intro h
    unfold sourceFile
    rw [sourceParts_inj.mpr h]

/-! ## Before the compiler -/

/-- The sources of units have been written, and no other files. -/
structure Staged (f : CommandForm) (cwd : Location) (s : Staging) (t t' : FileTree)
    (units : List SourceUnit) : Prop where
  dirs : t.DirsKept t'
  placed : ∀ u ∈ units, Placed f cwd s t' u.name
  file? : ∀ l, t'.file? l =
    ((units.reverse.find? fun u => sourceAt f cwd s u.name = l).map (·.text.toUTF8)).or (t.file? l)

theorem placed_of_writeThrough {making : String} {bytes : ByteArray} (hroot : t.isDir cwd s.root = true)
    (hparts : ∀ r ∈ sourceParts f n, Part r)
    (h : t.writeThrough cwd making (sourceFile f s n) bytes = (t', .ok ())) :
    Placed f cwd s t' n := by
  obtain ⟨u, -, hwrite⟩ := write_of_writeThrough h
  obtain ⟨l, hloc, -⟩ := write_spec hwrite
  refine ⟨hparts, locate_kept (writes_of_write hwrite).dirs ?_⟩
  rw [hloc, locate_eq hloc, destination_sourceFile hroot hparts]

theorem stageSources_spec (hroot : t.isDir cwd s.root = true)
    (h : f.stageSources cwd s.sources t units = (t', .ok paths)) :
    paths = units.map (fun u => sourceFile f s u.name) ∧ Staged f cwd s t t' units := by
  induction units generalizing t paths with
  | nil =>
    obtain ⟨rfl, hpaths⟩ := Prod.mk.inj h
    exact ⟨(Except.ok.inj hpaths).symm, .refl t, by simp, fun l => rfl⟩
  | cons x xs ih =>
    rcases stageSources_cases h with
      ⟨-, e, he⟩ | ⟨hparts, ⟨e, -, he⟩ | ⟨v, rest, hwrite, hrest, hpaths⟩⟩
    · cases he
    · cases he
    · cases rest with
      | error e => cases hpaths
      | ok ps =>
        obtain rfl := Except.ok.inj hpaths
        have hw := writes_of_writeThrough hwrite
        rw [destination_sourceFile hroot hparts] at hw
        obtain ⟨rfl, hstaged⟩ := ih (isDir_kept hw.dirs hroot) hrest
        refine ⟨rfl, hw.dirs.trans hstaged.dirs, ?_, fun l => ?_⟩
        · exact List.forall_mem_cons.mpr
            ⟨(placed_of_writeThrough hroot hparts hwrite).kept hstaged.dirs, hstaged.placed⟩
        · rw [hstaged.file?, hw.file?, List.reverse_cons, List.find?_append]
          -- a later unit written to the same place comes first in the reversed list
          by_cases hl : sourceAt f cwd s x.name = l
          · rw [if_pos hl.symm]
            simp [hl]
          · rw [if_neg (Ne.symm hl)]
            simp [hl]

theorem stageLibrary_spec (hroot : t.isDir cwd s.root = true)
    (h : f.stageLibrary cwd s.library t stored = (t', .ok ())) :
    t.DirsKept t' ∧ ∀ n, t'.file? (sourceAt f cwd s n) = t.file? (sourceAt f cwd s n) := by
  refine ⟨(within_stageLibrary hroot h).dirs, fun n => ?_⟩
  have hne := text_ne_empty_of_isDir hroot
  unfold CommandForm.stageLibrary at h
  split at h
  · refine ArtifactDirectory.file?_save (text_join_ne_empty hne _) h fun hpre => ?_
    have hplace : (f.directory s.library []).location cwd =
        destination cwd s.root.components ++ ["lib"] := by
      unfold ArtifactDirectory.location CommandForm.directory Staging.library
      rw [components_join hne part_library, destination, List.foldl_append]
      rfl
    rw [hplace, sourceAt, List.prefix_append_right_inj, List.cons_prefix_cons] at hpre
    exact absurd hpre.1 (by decide)
  · obtain ⟨rfl, -⟩ := Prod.mk.inj h
    rfl

/-! ## Its start -/

/-- A compiler run gets to the start of the compiler, which then finds this tree and these paths of
sources. -/
def Starts (c : Command) (cwd : Location) (s : Staging) (t : FileTree) (units : List SourceUnit)
    (stored : List Artifact) (paths : List Path) (w : FileTree) : Prop :=
  ∃ u v, t.makeDirs cwd s.output = (u, .ok ()) ∧
    c.stageSources cwd s.sources u units = (v, .ok paths) ∧
    c.stageLibrary cwd s.library v stored = (w, .ok ())

theorem Starts.buildIn (h : c.Starts cwd s t units stored paths w) (programs : Programs)
    (processors : ProcessorSet) : c.buildIn programs cwd s t units processors stored =
      match programs c.program (c.allArguments s processors paths) cwd w with
      | .error e =>
        ⟨w, .early ("failed to run " ++ c.program ++ ": " ++ e.message), 0, fun _ => w⟩
      | .ok r => ⟨r.tree, c.conclude cwd s units r, r.elapsed, r.treeAt⟩ := by
  obtain ⟨u, v, hmake, hsources, hlibrary⟩ := h
  cases hrun : programs c.program (c.allArguments s processors paths) cwd w <;>
    simp only [Command.buildIn, hmake, hsources, hlibrary, hrun]

def LastWith (units : List SourceUnit) (segments : List String) (u : SourceUnit) : Prop :=
  u.name.segments = segments ∧
    ∃ before after, units = before ++ u :: after ∧ ∀ v ∈ after, v.name.segments ≠ segments

theorem Starts.spec (hroot : t.isDir cwd s.root = true) (h : c.Starts cwd s t units stored paths w) :
    paths = units.map (fun u => sourceFile c.toCommandForm s u.name) ∧
      ∀ u ∈ units, Placed c.toCommandForm cwd s w u.name ∧
        ∃ last, LastWith units u.name.segments last ∧
          w.file? (sourceAt c.toCommandForm cwd s u.name) = some last.text.toUTF8 := by
  obtain ⟨u, v, hmake, hsources, hlibrary⟩ := h
  have hu : u.isDir cwd s.root = true := by
    have hwithin := within_makeDirs hroot part_output
    rw [show s.root.join ⟨"out"⟩ = s.output from rfl, hmake] at hwithin
    exact hwithin.isDir hroot
  obtain ⟨hpaths, hstaged⟩ := stageSources_spec hu hsources
  obtain ⟨hdirs, hkept⟩ := stageLibrary_spec (isDir_kept hstaged.dirs hu) hlibrary
  refine ⟨hpaths, fun x hx => ⟨(hstaged.placed x hx).kept hdirs, ?_⟩⟩
  obtain ⟨last, hlast⟩ : ∃ last, units.reverse.find? (fun y =>
      sourceAt c.toCommandForm cwd s y.name = sourceAt c.toCommandForm cwd s x.name) = some last :=
    Option.isSome_iff_exists.mp (List.find?_isSome.mpr ⟨x, by simpa using hx, by simp⟩)
  obtain ⟨hsame, before, after, hsplit, hafter⟩ := ArtifactDirectory.find?_reverse_eq_some.mp hlast
  simp only [sourceAt_inj, decide_eq_true_eq, decide_eq_false_iff_not] at hsame hafter
  refine ⟨last, ⟨hsame, before, after, hsplit, hafter⟩, ?_⟩
  rw [hkept, hstaged.file?, hlast]
  rfl

/-- When the compiler starts, each of its paths leads to the text of the last unit with the segments of its
own. So each leads to the text of its own unit exactly if units with the same segments have the same
text, and the paths differ exactly if the segments do. -/
theorem sources_kept_iff (c : Command) (cwd : Location) (s : Staging) (t : FileTree)
    (units : List SourceUnit) (stored : List Artifact) (paths : List Path) (w : FileTree)
    (hroot : t.isDir cwd s.root = true) (h : c.Starts cwd s t units stored paths w) :
    List.Forall₂ (fun p u => ∃ last, LastWith units u.name.segments last ∧
      w.readText cwd p = .ok last.text) paths units ∧
    (List.Forall₂ (fun p u => w.readText cwd p = .ok u.text) paths units ↔
      ∀ u ∈ units, ∀ v ∈ units, u.name.segments = v.name.segments → u.text = v.text) ∧
    (paths.Nodup ↔ (units.map (·.name.segments)).Nodup) := by
  obtain ⟨rfl, hunits⟩ := h.spec hroot
  simp only [List.forall₂_map_left_iff, List.forall₂_same]
  refine ⟨fun u hu => ?_, ⟨fun hread u hu v hv hsame => ?_, fun hsame u hu => ?_⟩, ?_⟩
  · obtain ⟨hplaced, last, hlast, hfile⟩ := hunits u hu
    exact ⟨last, hlast, hplaced.readText hfile⟩
  · have hpath := (sourceFile_inj (hunits u hu).1 (hunits v hv).1).mpr hsame
    have huv := (hread u hu).symm.trans (hpath ▸ hread v hv)
    exact Except.ok.inj huv
  · obtain ⟨hplaced, last, ⟨hsegments, before, after, hsplit, -⟩, hfile⟩ := hunits u hu
    rw [hplaced.readText hfile, hsame last (hsplit ▸ by simp) u hu hsegments]
  · unfold List.Nodup
    rw [List.pairwise_map, List.pairwise_map]
    exact List.Pairwise.iff_of_mem fun hu hv =>
      not_congr (sourceFile_inj (hunits _ hu).1 (hunits _ hv).1)

namespace Example

def command : Command :=
  ⟨⟨[], "-p", "-o", some "-l", "src", "bin", '/', true⟩, "cc"⟩

def staging : Staging :=
  ⟨⟨"/s"⟩⟩

def fresh : FileTree :=
  ⟨[(["s"], .dir)]⟩

def unit (name text : String) (h : Name.WellFormed name := by decide +kernel) : SourceUnit :=
  ⟨⟨name, h⟩, text, .remote⟩

def library : List Artifact :=
  [.plain (unit "m.n" "").name ⟨#[0]⟩]

def staged (units : List SourceUnit) : FileTree :=
  (command.stageLibrary [] staging.library
    (command.stageSources [] staging.sources (fresh.makeDirs [] staging.output).1 units).1 library).1

theorem starts {units : List SourceUnit} {paths : List Path}
    (hmake : (fresh.makeDirs [] staging.output).2 = .ok ())
    (hsources : (command.stageSources [] staging.sources
      (fresh.makeDirs [] staging.output).1 units).2 = .ok paths)
    (hlibrary : (command.stageLibrary [] staging.library (command.stageSources [] staging.sources
      (fresh.makeDirs [] staging.output).1 units).1 library).2 = .ok ()) :
    command.Starts [] staging fresh units library paths (staged units) :=
  ⟨_, _, Prod.ext rfl hmake, Prod.ext rfl hsources, Prod.ext rfl hlibrary⟩

def apart : List SourceUnit :=
  [unit "m.n" "one", unit "m/o" "two"]

theorem starts_apart : command.Starts [] staging fresh apart library
    [⟨"/s/src/m/n.src"⟩, ⟨"/s/src/m/o.src"⟩] (staged apart) :=
  starts (by decide +kernel) (by decide +kernel) (by decide +kernel)

def spelled : List SourceUnit :=
  [unit "m/n" "one", unit "m.n" "two"]

theorem starts_spelled : command.Starts [] staging fresh spelled library
    [⟨"/s/src/m/n.src"⟩, ⟨"/s/src/m/n.src"⟩] (staged spelled) :=
  starts (by decide +kernel) (by decide +kernel) (by decide +kernel)

end Example

open Example in
theorem sources_kept_apart :
    List.Forall₂ (fun p u => (staged apart).readText [] p = .ok u.text)
      [⟨"/s/src/m/n.src"⟩, ⟨"/s/src/m/o.src"⟩] apart := by
  have hkept := sources_kept_iff command [] staging fresh apart library _ _ (by decide +kernel) starts_apart
  exact hkept.2.1.mpr (by decide +kernel)

open Example in
/-- Names in two spellings are different, and the source of the first is overwritten by the second's. -/
theorem source_overwritten : (spelled.map (·.name)).Nodup ∧ ∃ paths w,
    command.Starts [] staging fresh spelled library paths w ∧
      ¬ List.Forall₂ (fun p u => w.readText [] p = .ok u.text) paths spelled := by
  refine ⟨by decide +kernel, _, _, starts_spelled, fun h => ?_⟩
  have hread : (staged spelled).readText [] ⟨"/s/src/m/n.src"⟩ = .ok "two" := by decide +kernel
  have hfirst : (staged spelled).readText [] ⟨"/s/src/m/n.src"⟩ = .ok "one" :=
    (List.forall₂_cons.mp h).1
  rw [hread] at hfirst
  exact absurd (Except.ok.inj hfirst) (by decide)

end Command

end OnDemand
