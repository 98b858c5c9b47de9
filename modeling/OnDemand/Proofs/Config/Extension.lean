import OnDemand.Config.Basic
import OnDemand.Proofs.ArtifactDirectory.Failure

/-!
# The extension of artifacts

Validation lets every extension of artifacts pass. One with a slash is no extension at all, so no
artifact can be saved (`save_extension_iff`). One that is empty or has a dot is written to the paths of
files and is not what is read from them, so nothing that is saved is found again
(`stem_of_isArtifactFile`). With any other an artifact is found again, if the operating system takes
its path (`found_iff`).
-/

namespace OnDemand

namespace ArtifactDirectory

open FileTree OnDemand.Path

variable {d : ArtifactDirectory} {t t' u : FileTree} {cwd : Location} {file : String}
  {as : List Artifact} {a : Artifact} {e : BadExtension}

/-! ## Extensions with a slash -/

theorem writeThrough_ne_extension {making : String} {p : Path} {bytes : ByteArray} :
    t.writeThrough cwd making p bytes ≠ (t', .error (.extension e)) := by
  intro h
  unfold writeThrough at h
  split at h
  · simp only at h
    split at h <;> cases (Prod.mk.inj h).2
  · split at h
    · simp only at h
      split at h <;> cases (Prod.mk.inj h).2
    · cases (Prod.mk.inj h).2

theorem readList_ne_extension : d.readList t cwd file ≠ .error (.extension e) := by
  intro h
  unfold readList at h
  split at h <;> cases h

theorem appendList_ne_extension {names : List Name} :
    d.appendList t cwd file names ≠ (t', .error (.extension e)) := by
  intro h
  unfold appendList at h
  split at h
  · rename_i err hread
    rw [(Except.error.inj (Prod.mk.inj h).2)] at hread
    exact readList_ne_extension hread
  · simp only at h
    split at h
    · cases (Prod.mk.inj h).2
    · exact writeThrough_ne_extension h

theorem slash_of_saveFiles : ∀ {as : List Artifact} {t : FileTree},
    d.saveFiles cwd t as = (t', .error (.extension e)) → d.extension.toList.any isSlash = true
  | [], t, h => by cases (Prod.mk.inj h).2
  | a :: as, t, h => by
    unfold saveFiles at h
    rw [pathFor_eq] at h
    by_cases hslash : d.extension.toList.any isSlash = true
    · exact hslash
    · rw [if_neg hslash] at h
      simp only at h
      split at h
      · rename_i hwrite
        obtain ⟨rfl, hr⟩ := Prod.mk.inj h
        rw [Except.error.inj hr] at hwrite
        exact absurd hwrite writeThrough_ne_extension
      · exact slash_of_saveFiles h

/-- Where the directory can be made artifacts are refused for their extension exactly if it holds a
slash. -/
theorem save_extension_iff (hmade : (t.makeDirs cwd d.root).2 = .ok ()) :
    (∃ e, (d.save t cwd [a]).2 = .error (.extension e)) ↔ '/' ∈ d.extension.toList := by
  have hany : d.extension.toList.any isSlash = true ↔ '/' ∈ d.extension.toList := by
    simp [isSlash]
  rw [← hany]
  have hmake : t.makeDirs cwd d.root = ((t.makeDirs cwd d.root).1, .ok ()) := by rw [← hmade]
  constructor
  · rintro ⟨e, h⟩
    have h := save_mk h
    generalize (d.save t cwd [a]).1 = t' at h
    unfold save at h
    rw [hmake] at h
    simp only at h
    split at h
    · rename_i hfiles
      rw [Except.error.inj (Prod.mk.inj h).2] at hfiles
      exact slash_of_saveFiles hfiles
    -- adding to a list finds no fault with the extension
    · split at h
      · rename_i hnames
        rw [Except.error.inj (Prod.mk.inj h).2] at hnames
        exact absurd hnames appendList_ne_extension
      · exact absurd h appendList_ne_extension
  · intro hslash
    refine ⟨⟨d.extension⟩, ?_⟩
    unfold save
    rw [hmake]
    simp only [saveFiles, pathFor_eq, if_pos hslash]

/-! ## Extensions that are read back -/

/-- What is read back from the path of a file as its extension is neither empty nor has a dot. -/
theorem stem_of_isArtifactFile {n : Name} (hslash : ∀ c ∈ d.extension.toList, c ≠ '/')
    (h : d.isArtifactFile (d.fileParts n.segments) = true) : Stem d.extension := by
  obtain ⟨init, last, hn, -, hlast⟩ := exists_segments_eq n
  rw [hn, fileParts_concat] at h
  simp only [isArtifactFile, List.getLast?_concat, beq_iff_eq] at h
  refine ⟨fun hempty => ?_, hslash, noDot_of_extension? h⟩
  rw [suffix, if_pos hempty, String.append_empty, extension?_stem hlast] at h
  cases h

theorem paths_of_saveFiles : ∀ {as : List Artifact} {t : FileTree},
    d.saveFiles cwd t as = (t', .ok ()) →
    ∀ a ∈ as, (∀ c ∈ d.extension.toList, c ≠ '/') ∧ Fit (d.root.joinAll (d.fileParts a.name.segments))
  | [], _, _ => fun _ h => (List.not_mem_nil h).elim
  | a :: as, t, h => by
    unfold saveFiles at h
    split at h
    · cases (Prod.mk.inj h).2
    · rename_i path hpath
      obtain ⟨hslash, rfl⟩ := pathFor_spec hpath
      split at h
      · cases (Prod.mk.inj h).2
      · rename_i hwrite
        obtain ⟨v, -, hwrite⟩ := write_of_writeThrough hwrite
        obtain ⟨l, hloc, -⟩ := write_spec hwrite
        exact List.forall_mem_cons.mpr ⟨⟨hslash, fit_of_locate hloc⟩, paths_of_saveFiles h⟩

theorem saveFiles_of_save (hroot : t.isDir cwd d.root = true) (h : d.save t cwd as = (t', .ok ())) :
    ∃ u, d.saveFiles cwd t as = (u, .ok ()) := by
  unfold save at h
  rw [makeDirs_of_isDir hroot] at h
  simp only at h
  split at h
  · cases (Prod.mk.inj h).2
  · rename_i u hfiles
    exact ⟨u, hfiles⟩

theorem Empty.loadsFrom (h : d.Empty cwd t) (hsave : d.save t cwd [a] = (t', .ok ()))
    {parts : List String} {b : Artifact} (hb : d.LoadsFrom cwd t' parts b) :
    parts = d.fileParts a.name.segments := by
  obtain ⟨bytes, n, hf, hparts, -⟩ := hb
  have hstem : ∀ {s}, Stem s → d.location cwd ++ parts ≠ d.location cwd ++ [s] := by
    intro s hs heq
    obtain rfl := List.append_cancel_left heq
    simp [isArtifactFile, extension?_stem hs] at hparts
  cases save_cases h.isDir hsave with
  | saved hw ha hm =>
    rw [hm.others _ (hstem stem_processorsFile), ha.others _ (hstem stem_namesFile), hw.file?,
      h.file?, Option.or_none] at hf
    obtain ⟨w, hw, -⟩ := Option.map_eq_some_iff.mp hf
    have hmem := List.mem_of_find?_eq_some hw
    obtain rfl : w = a := by simpa using hmem
    simpa [eq_comm] using List.find?_some hw

/-- In a directory where nothing was an artifact can be saved and is found again exactly if the
extension is neither empty nor has a slash or dot, and the operating system takes the path. -/
theorem found_iff (hne : d.root.text ≠ "") (hsep : Name.isForbidden d.separator = false)
    (hk : t.Keyed) (h : d.Empty cwd t)
    (hlists : ∀ file, file = namesFile ∨ file = processorsFile → Fit (d.listPath file))
    (hb : a.name.Beside) :
    (∃ t' loaded, d.save t cwd [a] = (t', .ok ()) ∧ d.load t' cwd = .ok loaded ∧
        ∃ b ∈ loaded, b.payload = a.payload) ↔
      Stem d.extension ∧ Fit (d.root.joinAll (d.fileParts a.name.segments)) := by
  constructor
  · rintro ⟨t', loaded, hsave, hload, b, hb, -⟩
    obtain ⟨u, hfiles⟩ := saveFiles_of_save h.isDir hsave
    obtain ⟨hslash, hfit⟩ := paths_of_saveFiles hfiles a (by simp)
    cases save_cases h.isDir hsave with
    | saved hw ha hm =>
      have hdir := isDir_kept hm.dirs (isDir_kept ha.dirs (isDir_kept hw.dirs h.isDir))
      obtain ⟨parts, hfrom⟩ := (mem_load (hm.keyed (ha.keyed (hw.keyed hk))) hdir hload).mp hb
      -- no other file is there that could have been loaded
      obtain rfl := h.loadsFrom hsave hfrom
      obtain ⟨bytes, n, -, hparts, -⟩ := hfrom
      exact ⟨stem_of_isArtifactFile hslash hparts, hfit⟩
  · rintro ⟨hext, hfit⟩
    have hd : d.Sound := ⟨hne, hext⟩
    have hbeside : ∀ b ∈ [a], b.name.Beside := by simpa using hb
    -- nothing stands in the way of a save with such an extension
    have hok : (d.save t cwd [a]).2 = .ok () :=
      save_room hd h.isDir (by simpa using hfit) (fun b _ => h.room b.name) hbeside
        (h.readable stem_namesFile.part (hlists _ (Or.inl rfl)))
        (h.readable stem_processorsFile.part (hlists _ (Or.inr rfl)))
    have hsave := save_mk hok
    have hafter := (h.loadable hk hlists).save hd hsep hbeside hsave
    obtain ⟨loaded, hload⟩ := (loadable_iff hafter.keyed hafter.isDir).mp hafter
    obtain ⟨n, hn⟩ := nameAt_partsOf hd hsep (d.save t cwd [a]).1 cwd a.name
    have hfile : (d.save t cwd [a]).1.file? (d.place cwd a.name) = some a.payload := by
      rw [(save_spec hd hsave).file? _ (place_ne_of_stem hd stem_namesFile a.name)
        (place_ne_of_stem hd stem_processorsFile a.name)]
      simp
    have hshort := tooLong_eq_false.mpr hfit.short
    rw [fileParts_of_sound hd] at hshort
    refine ⟨_, loaded, hsave, hload, _, (mem_load hafter.keyed hafter.isDir hload).mpr
      ⟨_, a.payload, n, hfile, isArtifactFile_partsOf hd a.name, reached_none.mpr hshort, hn, rfl⟩,
      payload_artifactOf _ _ _⟩

end ArtifactDirectory

namespace Config

open FileTree OnDemand.Path ArtifactDirectory

variable {c : Config} {base : Path} {t : FileTree} {cwd : Location} {a : Artifact}

theorem separator_of_validate (h : c.validate = .ok ()) :
    c.form.separator = '/' ∨ c.form.separator = '.' := by
  have hsep : c.checkSeparator = .ok () := by
    unfold validate at h
    cases hc : c.checkSeparator with
    | ok _ => rfl
    | error e =>
      rw [hc] at h
      cases h
  unfold checkSeparator at hsep
  split at hsep
  · assumption
  · cases hsep

/-- With an accepted configuration an artifact is saved in the directory for artifacts, which was
missing, and found there again exactly if the extension is neither empty nor has a slash or dot and the
operating system takes the path. It is refused for its extension exactly if that has a slash. -/
theorem artifact_found_iff (hv : c.validate = .ok ()) (hbase : base.text ≠ "") (hk : t.Keyed)
    (hnew : (c.artifactsAt base).Vacant cwd t)
    (hmade : (t.makeDirs cwd (c.artifactsAt base).root).2 = .ok ())
    (hlists : ∀ file, file = namesFile ∨ file = processorsFile →
      Fit ((c.artifactsAt base).listPath file))
    (hfirst : a.name.segments.head? ≠ some namesFile ∧ a.name.segments.head? ≠ some processorsFile) :
    ((∃ t' loaded, (c.artifactsAt base).save t cwd [a] = (t', .ok ()) ∧
        (c.artifactsAt base).load t' cwd = .ok loaded ∧ ∃ b ∈ loaded, b.payload = a.payload) ↔
      Stem c.form.artifactExtension ∧
        Fit ((c.artifactsAt base).root.joinAll ((c.artifactsAt base).fileParts a.name.segments))) ∧
    ((∃ e, ((c.artifactsAt base).save t cwd [a]).2 = .error (.extension e)) ↔
      '/' ∈ c.form.artifactExtension.toList) := by
  have hne : (c.artifactsAt base).root.text ≠ "" := text_join_ne_empty hbase _
  have hsep : Name.isForbidden (c.artifactsAt base).separator = false := by
    rcases separator_of_validate hv with h | h <;>
      · show Name.isForbidden c.form.separator = false
        rw [h]
        decide
  refine ⟨?_, save_extension_iff hmade⟩
  rw [(save_of_makeDirs hne (Prod.ext rfl hmade) [a]).2]
  exact found_iff hne hsep ((roomier_makeDirs t cwd _).keyed hk) (hnew.empty hne hmade) hlists
    fun _ => hfirst

namespace Example

/-- The initial configuration with another extension of artifacts, which are kept in `s`. -/
def extended (e : String) : Config :=
  { initial with form := { initial.form with artifactExtension := e }, artifacts := ⟨"s"⟩ }

/-- The directory for artifacts with the configuration in the root. -/
def kept (e : String) : ArtifactDirectory :=
  (extended e).artifactsAt ⟨"/"⟩

def saved : Artifact :=
  ArtifactDirectory.Example.a

theorem vacant_kept (e : String) : (kept e).Vacant [] .empty := by
  have hlocation : (kept "").location [] = ["s"] := by decide +kernel
  have hup : .up ∉ (kept "").root.components := by decide +kernel
  refine vacant_of_missing hup fun parts => ?_
  show FileTree.entry? .empty ((kept "").location [] ++ parts) = none
  rw [hlocation]
  rfl

def left (file : String) : FileTree :=
  ⟨[(["s", "NAMES"], .file "a\n".toUTF8), (["s", file], .file ⟨#[0]⟩), (["s"], .dir)]⟩

end Example

open Example in
theorem artifact_found_iff_log : ∃ t loaded, (kept "log").save .empty [] [saved] = (t, .ok ()) ∧
    (kept "log").load t [] = .ok loaded ∧ ∃ b ∈ loaded, b.payload = saved.payload := by
  have hlists : ∀ file, file = namesFile ∨ file = processorsFile →
      Fit ((kept "log").listPath file) := by
    rintro file (rfl | rfl) <;> decide +kernel
  exact (artifact_found_iff (c := extended "log") (by decide +kernel) (by decide) (by decide)
    (vacant_kept "log") (by decide +kernel) hlists (by decide +kernel)).1.mpr
    ⟨stem_of_all (by decide +kernel) (by decide +kernel), by decide +kernel⟩

open Example in
/-- Accepted extensions with which a saved artifact is not found again, and one with which none can be
saved. -/
theorem accepted_extension_fails :
    ((extended "tar.gz").validate = .ok () ∧
      (kept "tar.gz").save .empty [] [saved] = (left "a.tar.gz", .ok ()) ∧
      (kept "tar.gz").load (left "a.tar.gz") [] = .ok []) ∧
    ((extended "").validate = .ok () ∧
      (kept "").save .empty [] [saved] = (left "a", .ok ()) ∧ (kept "").load (left "a") [] = .ok []) ∧
    ((extended "a/b").validate = .ok () ∧
      ((kept "a/b").save .empty [] [saved]).2 = .error (.extension ⟨"a/b"⟩)) := by
  refine ⟨⟨by decide +kernel, Prod.ext (by decide +kernel) (by decide +kernel), ?_⟩,
    ⟨by decide +kernel, Prod.ext (by decide +kernel) (by decide +kernel), ?_⟩, by decide +kernel,
    by decide +kernel⟩
  · have hlook : (left "a.tar.gz").look [] (kept "tar.gz").root = .ok (["s"], .dir) := by
      decide +kernel
    have hprocessors : (kept "tar.gz").readList (left "a.tar.gz") [] processorsFile = .ok [] := by
      decide +kernel
    have hnames : (kept "tar.gz").readList (left "a.tar.gz") [] namesFile = .ok ["a"] := by
      decide +kernel
    exact load_of_sorted hlook hprocessors hnames (entriesBelow_of_pairwise (by decide +kernel))
      (by decide +kernel) .nil
  · have hlook : (left "a").look [] (kept "").root = .ok (["s"], .dir) := by decide +kernel
    have hprocessors : (kept "").readList (left "a") [] processorsFile = .ok [] := by decide +kernel
    have hnames : (kept "").readList (left "a") [] namesFile = .ok ["a"] := by decide +kernel
    exact load_of_sorted hlook hprocessors hnames (entriesBelow_of_pairwise (by decide +kernel))
      (by decide +kernel) .nil

end Config

end OnDemand
