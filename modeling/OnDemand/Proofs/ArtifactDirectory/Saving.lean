import OnDemand.Proofs.ArtifactDirectory

/-!
# What a save leaves behind

A save writes the files of the artifacts one after the other and stops at the first that cannot be
written (`saveFiles_spec`); then it adds to the two lists, which can be done whenever they can be
read (`appendList_cases`). So all that a save does, also one that fails, can be told by the artifacts
it came to and by the lists it could read (`save_cases`). A file can be written if no file stands on
the way to it and no directory in its place (`writeThrough_clear`).
-/

namespace OnDemand

namespace FileTree

open OnDemand.Path

variable {t t' u : FileTree} {cwd l : Location} {root p : Path} {s making : String}
  {init : List String} {bytes : ByteArray}

/-! ## Writing below a directory -/

/-- All directories that are new are on the way from a location through names, and their paths are not
too long. -/
def NewDirs (t t' : FileTree) (l : Location) (root : Path) (names : List String) : Prop :=
  ∀ l', t'.entry? l' = some .dir → t.entry? l' = some .dir ∨
    ∃ q, q ≠ [] ∧ q <+: names ∧ l' = l ++ q ∧ (root.joinAll q).tooLong = false

theorem Paves.newDirs {names : List String} (h : t.Paves t' l root names) :
    t.NewDirs t' l root names := by
  intro l' hd
  rcases h.entry? l' with h | ⟨-, -, hq⟩
  · exact Or.inl (h ▸ hd)
  · exact Or.inr hq

theorem dir_of_write (h : t.write cwd p bytes = .ok t') {l' : Location}
    (hd : t'.entry? l' = some .dir) : t.entry? l' = some .dir := by
  obtain ⟨l, hloc, hnd, rfl⟩ := write_spec h
  rw [entry?_set (ne_nil_of_entry hnd)] at hd
  split at hd
  · cases hd
  · exact hd

theorem write_of_writeThrough (h : t.writeThrough cwd making p bytes = (t', .ok ())) :
    ∃ u, t.Roomier u ∧ u.write cwd p bytes = .ok t' := by
  unfold writeThrough at h
  split at h
  · simp only at h
    split at h
    · rename_i hw
      obtain ⟨rfl, -⟩ := Prod.mk.inj h
      exact ⟨t, .refl t, hw⟩
    · cases (Prod.mk.inj h).2
  · rename_i parent _
    split at h
    · rename_i u hmake
      have hr := roomier_makeDirs t cwd parent
      rw [hmake] at hr
      simp only at h
      split at h
      · rename_i hw
        obtain ⟨rfl, -⟩ := Prod.mk.inj h
        exact ⟨u, hr, hw⟩
      · cases (Prod.mk.inj h).2
    · cases (Prod.mk.inj h).2

theorem short_of_writeThrough (h : t.writeThrough cwd making p bytes = (t', .ok ())) :
    p.tooLong = false := by
  obtain ⟨u, -, hw⟩ := write_of_writeThrough h
  obtain ⟨l, hloc, -, -⟩ := write_spec hw
  exact tooLong_eq_false.mpr (locate_spec hloc).2.2.1

theorem writes_of_writeThrough (h : t.writeThrough cwd making p bytes = (t', .ok ())) :
    t.Writes t' (destination cwd p.components) bytes := by
  obtain ⟨u, hr, hw⟩ := write_of_writeThrough h
  exact hr.writes (writes_of_write hw)

section
variable (hroot : t.isDir cwd root = true) (hparts : ∀ r ∈ init ++ [s], Part r)
include hroot hparts

theorem writeThrough_below {r : Except DirectoryError Unit}
    (h : t.writeThrough cwd making (root.joinAll (init ++ [s])) bytes = (t', r)) :
    ∃ u, t.Paves u (destination cwd root.components) root init ∧
      (t' = u ∧ (∃ e, r = .error e) ∨
        r = .ok () ∧ u.write cwd (root.joinAll (init ++ [s])) bytes = .ok t') := by
  have hpaves := paves_makeDirsWithin hroot (root.joinAll init).tidied.components.length
    fun r hr => hparts r (List.mem_append_left _ hr)
  unfold writeThrough at h
  rw [parent?_joinAll (text_ne_empty_of_isDir hroot) (hparts s (by simp))] at h
  simp only [makeDirs] at h
  -- the directories on the way are made, or one of them cannot be
  split at h
  · rename_i u hmake
    rw [hmake] at hpaves
    refine ⟨u, hpaves, ?_⟩
    split at h
    · rename_i hwrite
      obtain ⟨rfl, rfl⟩ := Prod.mk.inj h
      exact Or.inr ⟨rfl, hwrite⟩
    · obtain ⟨rfl, rfl⟩ := Prod.mk.inj h
      exact Or.inl ⟨rfl, _, rfl⟩
  · rename_i u e hmake
    rw [hmake] at hpaves
    obtain ⟨rfl, rfl⟩ := Prod.mk.inj h
    exact ⟨u, hpaves, Or.inl ⟨rfl, _, rfl⟩⟩

theorem newDirs_writeThrough {r : Except DirectoryError Unit}
    (h : t.writeThrough cwd making (root.joinAll (init ++ [s])) bytes = (t', r)) :
    t.NewDirs t' (destination cwd root.components) root init := by
  obtain ⟨u, hpaves, ⟨rfl, -⟩ | ⟨-, hwrite⟩⟩ := writeThrough_below hroot hparts h
  · exact hpaves.newDirs
  · exact fun l' hd => hpaves.newDirs l' (dir_of_write hwrite hd)

theorem roomier_of_writeThrough {e : DirectoryError}
    (h : t.writeThrough cwd making (root.joinAll (init ++ [s])) bytes = (t', .error e)) :
    t.Roomier t' := by
  obtain ⟨u, hpaves, ⟨rfl, -⟩ | ⟨hok, -⟩⟩ := writeThrough_below hroot hparts h
  · exact hpaves.roomier
  · cases hok

end

theorem write_join (hs : Part s) (h : t.isDir cwd p = true)
    (hloc : t.locate cwd (p.join ⟨s⟩) = .ok (destination cwd p.components ++ [s]))
    (hnd : t.entry? (destination cwd p.components ++ [s]) ≠ some .dir) (bytes : ByteArray) :
    ∃ t', t.write cwd (p.join ⟨s⟩) bytes = .ok t' := by
  unfold write
  rw [hloc]
  cases hentry : t.entry? (destination cwd p.components ++ [s]) with
  | none =>
    simp only [hentry, endsInPoint_join p hs, meansDirectory_join p hs, List.dropLast_concat,
      (isDir_spec h).2]
    exact ⟨_, rfl⟩
  | some e =>
    cases e with
    | dir => exact absurd hentry hnd
    | file b =>
      simp only [hentry, meansDirectory_join p hs]
      exact ⟨_, rfl⟩

/-- A file can be written if no file stands on the way to it and no directory in its place. -/
theorem writeThrough_clear (hroot : t.isDir cwd root = true) (hparts : ∀ r ∈ init ++ [s], Part r)
    (hf : Fit (root.joinAll (init ++ [s]))) (hc : t.Clear (destination cwd root.components) init)
    (hnd : t.entry? (destination cwd root.components ++ (init ++ [s])) ≠ some .dir)
    (making : String) (bytes : ByteArray) :
    ∃ t', t.writeThrough cwd making (root.joinAll (init ++ [s])) bytes = (t', .ok ()) := by
  have hs := hparts s (by simp)
  have hinit : ∀ r ∈ init, Part r := fun r hr => hparts r (List.mem_append_left _ hr)
  have hne := text_ne_empty_of_isDir hroot
  have hfit : Fit ((root.joinAll init).join ⟨s⟩) := by
    rwa [joinAll_concat] at hf
  have hlen : init.length ≤ (root.joinAll init).tidied.components.length := by
    rw [components_tidied (text_joinAll_ne_empty hne init), components_below hroot hinit]
    simp
  have hok := makeDirsWithin_clear hroot _ hinit (hfit.of_join (text_joinAll_ne_empty hne init) hs)
    hc hlen
  have hpaves := paves_makeDirsWithin hroot (root.joinAll init).tidied.components.length hinit
  have hdir := (makeDirsWithin_spec cwd _ t (root.joinAll init).tidied).2 hok (text_tidied_ne_empty _)
  unfold writeThrough
  rw [parent?_joinAll hne hs]
  simp only [makeDirs]
  cases hmake : makeDirsWithin cwd (root.joinAll init).tidied.components.length t
      (root.joinAll init).tidied with
  | mk u r =>
    rw [hmake] at hok hpaves hdir
    obtain rfl : r = .ok () := hok
    have hdir := isDir_of_tidied (isDir_kept hpaves.roomier.dirs hroot) hinit hdir
    have hplace : u.entry? (destination cwd (root.joinAll init).components ++ [s]) ≠ some .dir := by
      rw [destination_below hroot hinit, List.append_assoc]
      intro hd
      rcases hpaves.newDirs _ hd with hd | ⟨q, -, hpre, heq, -⟩
      · exact hnd hd
      · -- the way is shorter than the path of the file
        have := hpre.length_le
        rw [← List.append_cancel_left heq, List.length_append, List.length_singleton] at this
        omega
    obtain ⟨t', hwrite⟩ := write_join hs hdir (locate_join_fit hs hdir hfit) hplace bytes
    simp only [joinAll_concat, hwrite]
    exact ⟨t', rfl⟩

end FileTree

namespace ArtifactDirectory

open FileTree OnDemand.Path

variable {d : ArtifactDirectory} {t t' : FileTree} {cwd : Location} {file : String}

/-! ## Files -/

/-- The files of some artifacts have been written and no others, as far as their paths are not too
long. Directories have been made on the way to files of a longer list. -/
structure Wrote (d : ArtifactDirectory) (cwd : Location) (t t' : FileTree)
    (as written : List Artifact) : Prop where
  keyed : t.Keyed → t'.Keyed
  dirs : t.DirsKept t'
  file? : ∀ l, t'.file? l =
    ((written.reverse.find? fun a => d.location cwd ++ d.fileParts a.name.segments = l).map
      (·.payload)).or (t.file? l)
  newDirs : ∀ l, t'.entry? l = some .dir → t.entry? l = some .dir ∨
    ∃ a ∈ as, ∃ q, q ≠ [] ∧ q <+: a.name.segments.dropLast ∧ l = d.location cwd ++ q ∧
      (d.root.joinAll q).tooLong = false
  short : ∀ a ∈ written, (d.root.joinAll (d.fileParts a.name.segments)).tooLong = false

theorem Wrote.refl (d : ArtifactDirectory) (cwd : Location) (t : FileTree) (as : List Artifact) :
    d.Wrote cwd t t as [] :=
  ⟨id, .refl t, fun _ => rfl, fun _ => Or.inl, by simp⟩

theorem Wrote.cons {a : Artifact} {as written : List Artifact} {u : FileTree}
    (hw : t.Writes u (d.location cwd ++ d.fileParts a.name.segments) a.payload)
    (hd : t.NewDirs u (d.location cwd) d.root a.name.segments.dropLast)
    (hshort : (d.root.joinAll (d.fileParts a.name.segments)).tooLong = false)
    (h : d.Wrote cwd u t' as written) : d.Wrote cwd t t' (a :: as) (a :: written) := by
  refine ⟨h.keyed ∘ hw.keyed, hw.dirs.trans h.dirs, fun l => ?_, fun l hl => ?_,
    List.forall_mem_cons.mpr ⟨hshort, h.short⟩⟩
  · rw [h.file?, hw.file?, List.reverse_cons, List.find?_append]
    by_cases hl : d.location cwd ++ d.fileParts a.name.segments = l
    · rw [if_pos hl.symm]
      simp [hl]
    · rw [if_neg (Ne.symm hl)]
      simp [hl]
  · rcases h.newDirs l hl with hl | ⟨b, hb, hq⟩
    · rcases hd l hl with hl | hq
      · exact Or.inl hl
      · exact Or.inr ⟨a, List.mem_cons_self, hq⟩
    · exact Or.inr ⟨b, List.mem_cons_of_mem _ hb, hq⟩

/-- The files are written in order, up to the first that cannot be written. -/
theorem saveFiles_spec {r : Except DirectoryError Unit} : ∀ {as : List Artifact} {t : FileTree},
    t.isDir cwd d.root = true → d.saveFiles cwd t as = (t', r) →
    ∃ written rest, as = written ++ rest ∧ d.Wrote cwd t t' as written ∧
      (r = .ok () ∧ rest = [] ∨ (∃ e, r = .error e) ∧ rest ≠ [])
  | [], t, _, h => by
    obtain ⟨rfl, rfl⟩ := Prod.mk.inj h
    exact ⟨[], [], rfl, .refl d cwd t [], Or.inl ⟨rfl, rfl⟩⟩
  | a :: as, t, hroot, h => by
    unfold saveFiles at h
    split at h
    · obtain ⟨rfl, rfl⟩ := Prod.mk.inj h
      exact ⟨[], a :: as, rfl, .refl d cwd t _, Or.inr ⟨⟨_, rfl⟩, by simp⟩⟩
    · rename_i path hpath
      obtain ⟨hext, rfl⟩ := pathFor_spec hpath
      have hparts : ∀ r ∈ a.name.segments.dropLast ++
          [a.name.segments.getLast?.getD "" ++ suffix d.extension], Part r :=
        fun r hr => part_of_mem_fileParts hext a.name hr
      split at h
      · rename_i u e hwrite
        obtain ⟨rfl, rfl⟩ := Prod.mk.inj h
        have hroom := roomier_of_writeThrough hroot hparts hwrite
        -- a file that cannot be written may have had directories made for it
        refine ⟨[], a :: as, rfl, ⟨hroom.keyed, hroom.dirs, fun l => ?_, fun l hl => ?_, by simp⟩,
          Or.inr ⟨⟨_, rfl⟩, by simp⟩⟩
        · rw [hroom.file?]
          rfl
        · rcases newDirs_writeThrough hroot hparts hwrite l hl with hl | hq
          · exact Or.inl hl
          · exact Or.inr ⟨a, List.mem_cons_self, hq⟩
      · rename_i u hwrite
        have hw := writes_of_writeThrough hwrite
        rw [destination_below hroot fun r hr => part_of_mem_fileParts hext a.name hr] at hw
        obtain ⟨written, rest, rfl, hrest, hr⟩ := saveFiles_spec (isDir_kept hw.dirs hroot) h
        exact ⟨a :: written, rest, rfl,
          .cons hw (newDirs_writeThrough hroot hparts hwrite) (short_of_writeThrough hwrite) hrest,
          hr⟩

/-! ## Lists -/

/-- The list can be read, or is missing. -/
def Readable (d : ArtifactDirectory) (t : FileTree) (cwd : Location) (file : String) : Prop :=
  ∃ lines, d.readList t cwd file = .ok lines

theorem Readable.readList (hs : Part file) (hroot : t.isDir cwd d.root = true)
    (h : d.Readable t cwd file) : d.readList t cwd file = .ok (d.listAt t cwd file) := by
  obtain ⟨lines, h⟩ := h
  rw [h, readList_spec hs hroot h]

/-- A list can be read where its path can be gone, no directory is in its place and what it holds is
text. -/
theorem readable_iff (hs : Part file) (hroot : t.isDir cwd d.root = true) :
    d.Readable t cwd file ↔
      t.locate cwd (d.listPath file) = .ok (d.location cwd ++ [file]) ∧
        t.entry? (d.location cwd ++ [file]) ≠ some .dir ∧
        ∀ bytes, t.file? (d.location cwd ++ [file]) = some bytes →
          (String.fromUTF8? bytes).isSome = true := by
  have hmeans : meansDirectory (d.listPath file) = false := meansDirectory_join d.root hs
  unfold Readable ArtifactDirectory.readList readText FileTree.read look
  rcases locate_join (text_ne_empty_of_isDir hroot) hs (isDir_spec hroot).1 (isDir_spec hroot).2
    with hloc | ⟨err, hloc, herr⟩
  · have hloc : t.locate cwd (d.listPath file) = .ok (d.location cwd ++ [file]) := hloc
    unfold file?
    simp only [hloc, hmeans, true_and]
    cases hentry : t.entry? (d.location cwd ++ [file]) with
    | none => simp
    | some e =>
      cases e with
      | dir => simp
      | file bytes =>
        simp only [Bool.false_eq_true, if_false]
        cases htext : String.fromUTF8? bytes <;> simp [htext]
  · have hloc : t.locate cwd (d.listPath file) = .error err := hloc
    simp only [hloc]
    cases err <;> first | exact absurd rfl herr | simp

theorem Readable.kept (hs : Part file) (hroot : t.isDir cwd d.root = true) (hk : t.DirsKept t')
    (hnd : t'.entry? (d.location cwd ++ [file]) = some .dir →
      t.entry? (d.location cwd ++ [file]) = some .dir)
    (hfile : t'.file? (d.location cwd ++ [file]) = t.file? (d.location cwd ++ [file]))
    (h : d.Readable t cwd file) : d.Readable t' cwd file := by
  obtain ⟨hloc, hd, htext⟩ := (readable_iff hs hroot).mp h
  refine (readable_iff hs (isDir_kept hk hroot)).mpr ⟨locate_kept hk hloc, fun h => hd (hnd h), ?_⟩
  rwa [hfile]

theorem write_list (hs : Part file) (hroot : t.isDir cwd d.root = true)
    (h : d.Readable t cwd file) (bytes : ByteArray) :
    ∃ t', t.write cwd (d.listPath file) bytes = .ok t' ∧
      t.writeThrough cwd making (d.listPath file) bytes = (t', .ok ()) := by
  obtain ⟨hloc, hnd, -⟩ := (readable_iff hs hroot).mp h
  obtain ⟨t', hwrite⟩ := write_join hs hroot hloc hnd bytes
  have hwrite : t.write cwd (d.listPath file) bytes = .ok t' := hwrite
  refine ⟨t', hwrite, ?_⟩
  have hparent : (d.listPath file).parent? = some d.root.tidied :=
    parent?_join (text_ne_empty_of_isDir hroot) hs
  simp only [writeThrough, hparent, makeDirs, makeDirsWithin_of_isDir (isDir_tidied hroot), hwrite]

structure Adds (d : ArtifactDirectory) (cwd : Location) (t t' : FileTree) (file : String)
    (names : List Name) : Prop where
  keyed : t.Keyed → t'.Keyed
  dirs : t.DirsKept t'
  opened : d.Readable t cwd file
  noDirs : ∀ l, t'.entry? l = some .dir → t.entry? l = some .dir
  others : ∀ l, l ≠ d.location cwd ++ [file] → t'.file? l = t.file? l
  present : t.file? (d.location cwd ++ [file]) ≠ none → t'.file? (d.location cwd ++ [file]) ≠ none
  listAt : d.listAt t' cwd file = (extended (d.listAt t cwd file) names).filter isEntry
  readable : d.Readable t' cwd file

theorem adds_none (hreadable : d.Readable t cwd file) {names : List Name}
    (hsame : extended (d.listAt t cwd file) names = d.listAt t cwd file) :
    d.Adds cwd t t file names := by
  refine ⟨id, .refl t, hreadable, fun _ h => h, fun _ _ => rfl, id, ?_, hreadable⟩
  rw [hsame, List.filter_eq_self.mpr fun l hl => isEntry_of_mem_listAt hl]

theorem adds_of_write (hs : Part file) (hroot : t.isDir cwd d.root = true)
    (hreadable : d.Readable t cwd file) {names : List Name}
    (hne : extended (d.listAt t cwd file) names ≠ [])
    (hwrite : t.write cwd (d.listPath file)
      ("\n".intercalate (extended (d.listAt t cwd file) names) ++ "\n").toUTF8 = .ok t') :
    d.Adds cwd t t' file names := by
  have hw := writes_of_write hwrite
  rw [destination_listPath (text_ne_empty_of_isDir hroot) hs] at hw
  have hat : t'.file? (d.location cwd ++ [file]) =
      some ("\n".intercalate (extended (d.listAt t cwd file) names) ++ "\n").toUTF8 := by
    rw [hw.file?, if_pos rfl]
  refine ⟨hw.keyed, hw.dirs, hreadable, fun l hl => dir_of_write hwrite hl,
    fun l hl => by rw [hw.file?, if_neg hl], fun _ => by rw [hat]; simp, ?_, ?_⟩
  · rw [listAt, hat, Option.bind_some, fromUTF8?_toUTF8]
    exact listed_closed hne fun l hl => isLine_of_mem_extended (fun _ => isLine_of_mem_listAt) hl
  · obtain ⟨hloc, hnd, -⟩ := (readable_iff hs hroot).mp hreadable
    refine (readable_iff hs (isDir_kept hw.dirs hroot)).mpr ⟨locate_kept hw.dirs hloc,
      fun hd => hnd (dir_of_write hwrite hd), fun bytes hbytes => ?_⟩
    rw [hat] at hbytes
    obtain rfl := Option.some.inj hbytes
    rw [fromUTF8?_toUTF8]
    rfl

/-- Names are added to a list exactly if it can be read. -/
theorem appendList_cases (hs : Part file) (hroot : t.isDir cwd d.root = true) {names : List Name}
    {r : Except DirectoryError Unit} (h : d.appendList t cwd file names = (t', r)) :
    r = .ok () ∧ d.Adds cwd t t' file names ∨
      (∃ e, r = .error e) ∧ ¬ d.Readable t cwd file ∧ t' = t := by
  unfold appendList at h
  split at h
  · rename_i e hread
    obtain ⟨rfl, rfl⟩ := Prod.mk.inj h
    refine Or.inr ⟨⟨_, rfl⟩, ?_, rfl⟩
    rintro ⟨lines, hlines⟩
    rw [hread] at hlines
    cases hlines
  · rename_i lines hread
    left
    have hreadable : d.Readable t cwd file := ⟨lines, hread⟩
    obtain rfl := readList_spec hs hroot hread
    have hgrown := prefix_extended names (d.listAt t cwd file)
    simp only at h
    split at h
    -- nothing is written where no name is new
    · rename_i hlen
      obtain ⟨rfl, rfl⟩ := Prod.mk.inj h
      exact ⟨rfl, adds_none hreadable (hgrown.eq_of_length hlen.symm).symm⟩
    · rename_i hlen
      obtain ⟨u, hwrite, hthrough⟩ := write_list hs hroot hreadable
        ("\n".intercalate (extended (d.listAt t cwd file) names) ++ "\n").toUTF8
      rw [hthrough] at h
      obtain ⟨rfl, rfl⟩ := Prod.mk.inj h
      refine ⟨rfl, adds_of_write hs hroot hreadable (fun hnil => hlen ?_) hwrite⟩
      rw [hnil] at hgrown ⊢
      rw [List.prefix_nil.mp hgrown]

/-! ## The whole save -/

/-- How a save of artifacts on a directory that is there ends, and with what tree. -/
inductive SaveEnd (d : ArtifactDirectory) (cwd : Location) (t : FileTree) (as : List Artifact) :
    FileTree → Except DirectoryError Unit → Prop
  /-- An artifact could not be written; those before it were. -/
  | stopped {u : FileTree} {written rest : List Artifact} {e : DirectoryError} :
    as = written ++ rest → rest ≠ [] → d.Wrote cwd t u as written → SaveEnd d cwd t as u (.error e)
  /-- All were written, and the list of names could not be read. -/
  | unlisted {u : FileTree} {e : DirectoryError} :
    d.Wrote cwd t u as as → ¬ d.Readable u cwd namesFile → SaveEnd d cwd t as u (.error e)
  /-- The names were added as well, and the list of processors could not be read. -/
  | unmarked {u v : FileTree} {e : DirectoryError} :
    d.Wrote cwd t u as as → d.Adds cwd u v namesFile (as.map (·.name)) →
    ¬ d.Readable v cwd processorsFile → SaveEnd d cwd t as v (.error e)
  | saved {u v w : FileTree} :
    d.Wrote cwd t u as as → d.Adds cwd u v namesFile (as.map (·.name)) →
    d.Adds cwd v w processorsFile ((as.filter Artifact.isProcessor).map (·.name)) →
    SaveEnd d cwd t as w (.ok ())

theorem save_mk {as : List Artifact} {r : Except DirectoryError Unit} (h : (d.save t cwd as).2 = r) :
    d.save t cwd as = ((d.save t cwd as).1, r) := by
  rw [← h]

theorem makeDirs_of_isDir (h : t.isDir cwd d.root = true) : t.makeDirs cwd d.root = (t, .ok ()) :=
  makeDirsWithin_of_isDir h _

theorem save_cases (hroot : t.isDir cwd d.root = true) {as : List Artifact}
    {r : Except DirectoryError Unit} (h : d.save t cwd as = (t', r)) :
    d.SaveEnd cwd t as t' r := by
  unfold save at h
  rw [makeDirs_of_isDir hroot] at h
  simp only at h
  -- in order: the files, the list of names, the list of processors
  split at h
  · rename_i u e hfiles
    obtain ⟨rfl, rfl⟩ := Prod.mk.inj h
    obtain ⟨written, rest, has, hwrote, ⟨hok, -⟩ | ⟨-, hrest⟩⟩ := saveFiles_spec hroot hfiles
    · cases hok
    · exact .stopped has hrest hwrote
  · rename_i u hfiles
    obtain ⟨written, rest, has, hwrote, ⟨-, rfl⟩ | ⟨⟨e, he⟩, -⟩⟩ := saveFiles_spec hroot hfiles
    · rw [List.append_nil] at has
      subst has
      have hroot := isDir_kept hwrote.dirs hroot
      split at h
      · rename_i v e hnames
        obtain ⟨rfl, rfl⟩ := Prod.mk.inj h
        rcases appendList_cases stem_namesFile.part hroot hnames with ⟨hok, -⟩ | ⟨-, hread, rfl⟩
        · cases hok
        · exact .unlisted hwrote hread
      · rename_i v hnames
        rcases appendList_cases stem_namesFile.part hroot hnames with ⟨-, hadds⟩ | ⟨⟨e, he⟩, -⟩
        · have hroot := isDir_kept hadds.dirs hroot
          rcases appendList_cases stem_processorsFile.part hroot h with
            ⟨rfl, hmarks⟩ | ⟨⟨e, rfl⟩, hread, rfl⟩
          · exact .saved hwrote hadds hmarks
          · exact .unmarked hwrote hadds hread
        · cases he
    · cases he

theorem save_of_makeDirs {u : FileTree} (hne : d.root.text ≠ "")
    (h : t.makeDirs cwd d.root = (u, .ok ())) (as : List Artifact) :
    u.isDir cwd d.root = true ∧ d.save t cwd as = d.save u cwd as := by
  have hroot : (t.makeDirs cwd d.root).1.isDir cwd d.root = true :=
    isDir_makeDirs hne (by rw [h])
  rw [h] at hroot
  refine ⟨hroot, ?_⟩
  unfold save
  rw [h, makeDirs_of_isDir hroot]

theorem save_nil {r : Except DirectoryError Unit} (h : d.save t cwd [] = (t', r)) :
    t.Roomier t' ∧ ∀ e, r ≠ .error (.extension e) := by
  -- without names a list is read and not written
  have happend : ∀ {u v : FileTree} {file : String} {r : Except DirectoryError Unit},
      d.appendList u cwd file [] = (v, r) → v = u ∧ ∀ e, r ≠ .error (.extension e) := by
    intro u v file r h
    unfold appendList at h
    split at h
    · rename_i e hread
      obtain ⟨rfl, rfl⟩ := Prod.mk.inj h
      refine ⟨rfl, fun e' he => ?_⟩
      obtain rfl := Except.error.inj he
      unfold readList at hread
      split at hread <;> cases hread
    · simp only [extended, List.foldl_nil, if_true] at h
      obtain ⟨rfl, rfl⟩ := Prod.mk.inj h
      exact ⟨rfl, fun e => by simp⟩
  have hroom := roomier_makeDirs t cwd d.root
  unfold save at h
  split at h
  · rename_i hmake
    obtain ⟨rfl, rfl⟩ := Prod.mk.inj h
    rw [hmake] at hroom
    exact ⟨hroom, fun e => by simp⟩
  · rename_i u hmake
    rw [hmake] at hroom
    simp only [saveFiles] at h
    split at h
    · rename_i v e hnames
      obtain ⟨rfl, rfl⟩ := Prod.mk.inj h
      obtain ⟨rfl, hfile⟩ := happend hnames
      exact ⟨hroom, hfile⟩
    · rename_i v hnames
      obtain ⟨rfl, -⟩ := happend hnames
      obtain ⟨rfl, hfile⟩ := happend h
      exact ⟨hroom, hfile⟩

structure Saves (d : ArtifactDirectory) (cwd : Location) (t t' : FileTree) (as : List Artifact) :
    Prop where
  short : ∀ a ∈ as, (d.root.joinAll (d.partsOf a.name.segments)).tooLong = false
  keyed : t.Keyed → t'.Keyed
  dirs : t.DirsKept t'
  isDir : t'.isDir cwd d.root = true
  /-- The files of the artifacts are written and no others. -/
  file? : ∀ l, l ≠ d.location cwd ++ [namesFile] → l ≠ d.location cwd ++ [processorsFile] →
    t'.file? l = ((as.reverse.find? fun a => d.place cwd a.name = l).map (·.payload)).or (t.file? l)
  names : d.listAt t' cwd namesFile =
    (extended (d.listAt t cwd namesFile) (as.map (·.name))).filter isEntry
  processors : d.listAt t' cwd processorsFile =
    (extended (d.listAt t cwd processorsFile)
      ((as.filter Artifact.isProcessor).map (·.name))).filter isEntry

theorem lists_apart (l : Location) : l ++ [namesFile] ≠ l ++ [processorsFile] := by
  intro h
  exact absurd (List.append_cancel_left h) (by decide)

theorem Wrote.list {u : FileTree} {as written : List Artifact} (h : d.Wrote cwd t u as written)
    (hfiles : ∀ a ∈ written, d.fileParts a.name.segments ≠ [file]) :
    u.file? (d.location cwd ++ [file]) = t.file? (d.location cwd ++ [file]) := by
  rw [h.file?, List.find?_eq_none.mpr]
  · rfl
  · intro a ha
    have := hfiles a (List.mem_reverse.mp ha)
    simpa using this

theorem fileParts_ne_of_stem (hd : d.Sound) {s : String} (hs : Stem s) (n : Name) :
    d.fileParts n.segments ≠ [s] := by
  rw [fileParts_of_sound hd]
  exact partsOf_ne_of_stem hd hs n

theorem save_spec (hd : d.Sound) {as : List Artifact} (h : d.save t cwd as = (t', .ok ())) :
    d.Saves cwd t t' as := by
  cases hmake : t.makeDirs cwd d.root with
  | mk t₀ r =>
    cases r with
    | error e =>
      unfold save at h
      rw [hmake] at h
      cases (Prod.mk.inj h).2
    | ok _ =>
      have hroom := roomier_makeDirs t cwd d.root
      rw [hmake] at hroom
      obtain ⟨hroot, hsame⟩ := save_of_makeDirs hd.root hmake as
      rw [hsame] at h
      cases save_cases hroot h with
      | saved hwrote hnames hmarks =>
        -- neither an artifact nor the other list has the place of a list
        have hlist : ∀ {s : String}, Stem s → d.listAt _ cwd s = d.listAt t cwd s := fun hs =>
          listAt_congr ((hwrote.list fun a _ => fileParts_ne_of_stem hd hs a.name).trans
            (hroom.file? _))
        refine ⟨fun a ha => fileParts_of_sound hd a.name.segments ▸ hwrote.short a ha,
          hmarks.keyed ∘ hnames.keyed ∘ hwrote.keyed ∘ hroom.keyed,
          hroom.dirs.trans (hwrote.dirs.trans (hnames.dirs.trans hmarks.dirs)),
          isDir_kept hmarks.dirs (isDir_kept hnames.dirs (isDir_kept hwrote.dirs hroot)),
          fun l hn hp => ?_, ?_, ?_⟩
        · rw [hmarks.others l hp, hnames.others l hn, hwrote.file?, hroom.file?]
          simp only [fileParts_of_sound hd]
          rfl
        · rw [listAt_congr (hmarks.others _ (lists_apart _)), hnames.listAt, hlist stem_namesFile]
        · rw [hmarks.listAt, listAt_congr (hnames.others _ (lists_apart _).symm),
            hlist stem_processorsFile]

namespace Example

def directory : ArtifactDirectory :=
  ⟨⟨"/s"⟩, "bin", '/', []⟩

def plain (text : String) (h : Name.WellFormed text := by decide +kernel) : Artifact :=
  .plain ⟨text, h⟩ ⟨#[0]⟩

def a : Artifact := plain "a"

def b : Artifact := plain "b"

/-- For its file there has to be a directory where the list of names is. -/
def underList : Artifact := plain "NAMES/x"

end Example

end ArtifactDirectory

end OnDemand
