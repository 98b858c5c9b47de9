import OnDemand.Proofs.ArtifactDirectory.Saving

/-!
# When a save succeeds

A name has room in a directory if no file stands on the way to its file and no directory in its
place. The last part of a file's path has a dot in it and no directory for segments has, so saving
artifacts takes no name's room (`Wrote.room`), and the lists are in the way of those names alone whose
first of several segments is the name of a list (`Adds.room`). Where all names have room and the lists
can be read, a save succeeds (`save_room`).
-/

namespace OnDemand

/-- The first of several segments is the name of no list. Otherwise a directory would have to be
where the list is. -/
def Name.Beside (n : Name) : Prop :=
  1 < n.segments.length → n.segments.head? ≠ some ArtifactDirectory.namesFile ∧
    n.segments.head? ≠ some ArtifactDirectory.processorsFile

instance (n : Name) : Decidable n.Beside :=
  inferInstanceAs (Decidable (_ → _ ∧ _))

namespace ArtifactDirectory

open FileTree OnDemand.Path

variable {d : ArtifactDirectory} {t t' : FileTree} {cwd : Location} {file : String}
  {as written : List Artifact} {n m : Name}

/-! ## Room -/

/-- No file stands on the way to the file of a name, and no directory in its place. -/
structure Room (d : ArtifactDirectory) (cwd : Location) (t : FileTree) (n : Name) : Prop where
  way : t.Clear (d.location cwd) n.segments.dropLast
  free : t.entry? (d.location cwd ++ d.fileParts n.segments) ≠ some .dir

theorem stem_of_mem_dropLast {s : String} (h : s ∈ n.segments.dropLast) : Stem s :=
  stem_of_mem_segments (List.dropLast_subset _ h)

theorem fileParts_ne_way (hext : d.extension ≠ "") {q : List String}
    (hq : q <+: m.segments.dropLast) : d.fileParts n.segments ≠ q := by
  rintro rfl
  have hlast : n.segments.getLast?.getD "" ++ suffix d.extension ∈ m.segments.dropLast :=
    hq.subset (by simp [fileParts])
  refine (stem_of_mem_dropLast hlast).noDot '.' ?_ rfl
  simp [suffix, hext]

theorem Wrote.room (hext : d.extension ≠ "") (h : d.Wrote cwd t t' as written) (hn : d.Room cwd t n) :
    d.Room cwd t' n := by
  refine ⟨fun q hq => ?_, fun hd => ?_⟩
  · rw [h.file?, hn.way q hq, Option.or_none, Option.map_eq_none_iff, List.find?_eq_none]
    intro a _
    simpa using fileParts_ne_way hext hq
  · rcases h.newDirs _ hd with hd | ⟨a, _, q, _, hq, heq, _⟩
    · exact hn.free hd
    · exact fileParts_ne_way hext hq (List.append_cancel_left heq)

theorem saveFiles_room (hd : d.Sound) : ∀ {as : List Artifact} {t : FileTree},
    t.isDir cwd d.root = true →
    (∀ a ∈ as, Fit (d.root.joinAll (d.fileParts a.name.segments)) ∧ d.Room cwd t a.name) →
    (d.saveFiles cwd t as).2 = .ok ()
  | [], _, _, _ => rfl
  | a :: as, t, hroot, h => by
    obtain ⟨hfit, hroom⟩ := h a (by simp)
    have hparts : ∀ r ∈ a.name.segments.dropLast ++
        [a.name.segments.getLast?.getD "" ++ suffix d.extension], Part r :=
      fun r hr => part_of_mem_fileParts hd.extension.noSlash a.name hr
    have hpath : d.pathFor a.name = .ok (d.root.joinAll (d.fileParts a.name.segments)) := by
      rw [pathFor_eq, if_neg]
      simpa using any_isSlash.mpr hd.extension.noSlash
    obtain ⟨u, hwrite⟩ := writeThrough_clear hroot hparts hfit hroom.way hroom.free making a.payload
    have hw := writes_of_writeThrough hwrite
    rw [destination_below hroot hparts] at hw
    have hwrote : d.Wrote cwd t u [a] [a] :=
      .cons hw (newDirs_writeThrough hroot hparts hwrite) (short_of_writeThrough hwrite)
        (.refl d cwd u [])
    have hwrite : t.writeThrough cwd making (d.root.joinAll (d.fileParts a.name.segments)) a.payload =
        (u, .ok ()) := hwrite
    unfold saveFiles
    simp only [hpath, hwrite]
    -- a file that has been written stands in the way of none that follows
    refine saveFiles_room hd (isDir_kept hw.dirs hroot) fun b hb => ?_
    obtain ⟨hfit, hroom⟩ := h b (List.mem_cons_of_mem _ hb)
    exact ⟨hfit, hwrote.room hd.extension.nonempty hroom⟩

/-! ## Names beside the lists -/

theorem head?_of_way {q : List String} {s : String} (h : s :: q <+: n.segments.dropLast) :
    1 < n.segments.length ∧ n.segments.head? = some s := by
  obtain ⟨rest, hrest⟩ := h
  have hsplit := List.dropLast_concat_getLast n.segments_ne_nil
  rw [← hrest] at hsplit
  rw [← hsplit]
  exact ⟨by simp only [List.length_append, List.length_cons, List.length_nil]; omega, rfl⟩

theorem Beside.way_ne (hb : n.Beside) (hfile : file = namesFile ∨ file = processorsFile)
    {q : List String} (hq : q <+: n.segments.dropLast) : q ≠ [file] := by
  rintro rfl
  obtain ⟨hlen, hhead⟩ := head?_of_way hq
  rcases hfile with rfl | rfl
  · exact (hb hlen).1 hhead
  · exact (hb hlen).2 hhead

theorem stem_of_list (hfile : file = namesFile ∨ file = processorsFile) : Stem file := by
  rcases hfile with rfl | rfl
  · exact stem_namesFile
  · exact stem_processorsFile

theorem Adds.room {names : List Name} (hfile : file = namesFile ∨ file = processorsFile)
    (hb : n.Beside) (h : d.Adds cwd t t' file names) (hn : d.Room cwd t n) : d.Room cwd t' n := by
  refine ⟨fun q hq => ?_, fun hd => hn.free (h.noDirs _ hd)⟩
  rw [h.others _ fun heq => Beside.way_ne hb hfile hq (List.append_cancel_left heq)]
  exact hn.way q hq

theorem Wrote.readable (hfile : file = namesFile ∨ file = processorsFile)
    (hroot : t.isDir cwd d.root = true) (hb : ∀ a ∈ as, a.name.Beside)
    (hoff : ∀ a ∈ written, d.fileParts a.name.segments ≠ [file]) (h : d.Wrote cwd t t' as written)
    (hr : d.Readable t cwd file) : d.Readable t' cwd file := by
  refine hr.kept (stem_of_list hfile).part hroot h.dirs (fun hd => ?_) (h.list hoff)
  rcases h.newDirs _ hd with hd | ⟨a, ha, q, _, hq, heq, _⟩
  · exact hd
  · exact absurd (List.append_cancel_left heq).symm (Beside.way_ne (hb a ha) hfile hq)

theorem Adds.readable_other {added : String} {names : List Name} (hs : Part file)
    (hroot : t.isDir cwd d.root = true) (h : d.Adds cwd t t' added names) (hne : file ≠ added)
    (hr : d.Readable t cwd file) : d.Readable t' cwd file := by
  refine hr.kept hs hroot h.dirs (h.noDirs _) (h.others _ fun heq => hne ?_)
  exact (List.cons.inj (List.append_cancel_left heq)).1

theorem appendList_readable (hs : Part file) (hroot : t.isDir cwd d.root = true)
    (h : d.Readable t cwd file) (names : List Name) :
    ∃ t', d.appendList t cwd file names = (t', .ok ()) ∧ d.Adds cwd t t' file names := by
  cases hrun : d.appendList t cwd file names with
  | mk t' r =>
    rcases appendList_cases hs hroot hrun with ⟨rfl, hadds⟩ | ⟨-, hread, -⟩
    · exact ⟨t', rfl, hadds⟩
    · exact absurd h hread

/-- On a directory whose lists can be read artifacts with room are saved. -/
theorem save_room (hd : d.Sound) (hroot : t.isDir cwd d.root = true)
    (hfit : ∀ a ∈ as, Fit (d.root.joinAll (d.fileParts a.name.segments)))
    (hroom : ∀ a ∈ as, d.Room cwd t a.name) (hb : ∀ a ∈ as, a.name.Beside)
    (hnames : d.Readable t cwd namesFile) (hprocessors : d.Readable t cwd processorsFile) :
    (d.save t cwd as).2 = .ok () := by
  obtain ⟨u, hfiles⟩ : ∃ u, d.saveFiles cwd t as = (u, .ok ()) :=
    ⟨_, Prod.ext rfl (saveFiles_room hd hroot fun a ha => ⟨hfit a ha, hroom a ha⟩)⟩
  obtain ⟨written, rest, has, hwrote, hr⟩ := saveFiles_spec hroot hfiles
  obtain rfl : rest = [] := by
    rcases hr with ⟨-, h⟩ | ⟨⟨e, he⟩, -⟩
    · exact h
    · cases he
  obtain rfl : as = written := by rw [has, List.append_nil]
  have hroot' := isDir_kept hwrote.dirs hroot
  have hkept : ∀ {file}, file = namesFile ∨ file = processorsFile → d.Readable t cwd file →
      d.Readable u cwd file := fun hfile hr =>
    hwrote.readable hfile hroot hb (fun a _ => fileParts_ne_of_stem hd (stem_of_list hfile) a.name) hr
  obtain ⟨v, hlisted, hadds⟩ := appendList_readable stem_namesFile.part hroot'
    (hkept (Or.inl rfl) hnames) (as.map (·.name))
  obtain ⟨w, hmarked, -⟩ := appendList_readable stem_processorsFile.part (isDir_kept hadds.dirs hroot')
    (hadds.readable_other stem_processorsFile.part hroot' (by decide) (hkept (Or.inr rfl) hprocessors))
    ((as.filter Artifact.isProcessor).map (·.name))
  simp only [save, makeDirs_of_isDir hroot, hfiles, hlisted, hmarked]

/-! ## A new directory -/

structure Empty (d : ArtifactDirectory) (cwd : Location) (t : FileTree) : Prop where
  isDir : t.isDir cwd d.root = true
  entry? : ∀ parts, parts ≠ [] → t.entry? (d.location cwd ++ parts) = none

/-- A directory that is missing, or empty: no file is in its place, and when it is made nothing is in
it. -/
structure Vacant (d : ArtifactDirectory) (cwd : Location) (t : FileTree) : Prop where
  file? : t.file? (d.location cwd) = none
  entry? : ∀ parts, parts ≠ [] →
    FileTree.entry? (t.makeDirs cwd d.root).1 (d.location cwd ++ parts) = none

theorem vacant_of_missing (hup : .up ∉ d.root.components)
    (h : ∀ parts, t.entry? (d.location cwd ++ parts) = none) : d.Vacant cwd t := by
  have hroot := h []
  rw [List.append_nil] at hroot
  refine ⟨by rw [FileTree.file?, hroot], fun parts hparts => ?_⟩
  rw [makeDirs, entry?_makeDirsWithin _ t hup, h parts]
  intro hpre
  have hlen := hpre.length_le
  have := List.length_pos_iff.mpr hparts
  rw [List.length_append, location] at hlen
  omega

theorem Vacant.file_below (h : d.Vacant cwd t) (parts : List String) :
    t.file? (d.location cwd ++ parts) = none := by
  by_cases hparts : parts = []
  · rw [hparts, List.append_nil]
    exact h.file?
  · rw [← (roomier_makeDirs t cwd d.root).file?, FileTree.file?, h.entry? parts hparts]

theorem Vacant.empty (h : d.Vacant cwd t) (hne : d.root.text ≠ "")
    (hmade : (t.makeDirs cwd d.root).2 = .ok ()) : d.Empty cwd (t.makeDirs cwd d.root).1 :=
  ⟨isDir_makeDirs hne hmade, h.entry?⟩

theorem Empty.file? (h : d.Empty cwd t) (parts : List String) :
    t.file? (d.location cwd ++ parts) = none := by
  by_cases hparts : parts = []
  · have hdir := (isDir_spec h.isDir).2
    rw [hparts, List.append_nil, FileTree.file?]
    rw [show t.entry? (d.location cwd) = some .dir from hdir]
  · rw [FileTree.file?, h.entry? parts hparts]

theorem Empty.room (h : d.Empty cwd t) (n : Name) : d.Room cwd t n := by
  refine ⟨fun q _ => h.file? q, ?_⟩
  rw [h.entry? _ (by simp [fileParts])]
  simp

theorem Empty.readable (h : d.Empty cwd t) (hs : Part file) (hf : Fit (d.listPath file)) :
    d.Readable t cwd file := by
  refine (readable_iff hs h.isDir).mpr ⟨locate_join_fit hs h.isDir hf, ?_, ?_⟩
  · rw [h.entry? _ (by simp)]
    simp
  · rw [h.file?]
    simp

theorem Empty.listAt (h : d.Empty cwd t) (file : String) : d.listAt t cwd file = [] := by
  rw [ArtifactDirectory.listAt, h.file?]
  rfl

end ArtifactDirectory

end OnDemand
