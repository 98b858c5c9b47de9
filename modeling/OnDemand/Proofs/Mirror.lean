import OnDemand.Proofs.ArtifactDirectory
import OnDemand.Proofs.Store

/-!
# Directories that mirror a store

In a directory that only `save` has written to, all files are lists or stand at the places of names
(`Tidy`), so an artifact is loaded under a name with the segments it was saved under (`load_sound`).
If the files are those of a store and no two names of it have the same segments, the directory
mirrors the store (`Mirrors`), and each name comes out as it was saved (`nameAt_of_mirrors`), except
that one which the list takes for a comment is spelled anew.
-/

namespace OnDemand

namespace Store

variable {s t : Store}

/-- All names and payloads of another store are in this one. -/
def Carries (s t : Store) : Prop :=
  ∀ n a, t.get? n = some a → ∃ b, s.get? n = some b ∧ b.payload = a.payload

theorem Carries.trans {r : Store} (h : s.Carries t) (h' : t.Carries r) : s.Carries r := by
  intro n a ha
  obtain ⟨b, hb, hpb⟩ := h' n a ha
  obtain ⟨c, hc, hpc⟩ := h n b hb
  exact ⟨c, hc, hpc.trans hpb⟩

theorem Extends.carries (h : t.Extends s) : t.Carries s :=
  fun n a ha => ⟨a, h n a ha, rfl⟩

theorem Carries.contains (h : s.Carries t) {n : Name} (hn : t.contains n = true) :
    s.contains n = true := by
  obtain ⟨a, ha⟩ := get?_of_contains hn
  obtain ⟨b, hb, _⟩ := h n a ha
  exact contains_of_get? hb

/-- The names can be told apart and read back: no two of them have the same segments, and one that
begins like a comment is spelled with the separator. -/
structure Tellable (s : Store) (separator : Char) : Prop where
  apart : ∀ n ∈ s.names, ∀ m ∈ s.names, n.segments = m.segments → n = m
  spelled : ∀ n ∈ s.names, n.startsWith "#" = true →
    n.text = (String.ofList [separator]).intercalate n.segments

instance (s : Store) (separator : Char) : Decidable (s.Tellable separator) :=
  decidable_of_iff
    ((∀ n ∈ s.names, ∀ m ∈ s.names, n.segments = m.segments → n = m) ∧
      ∀ n ∈ s.names, n.startsWith "#" = true →
        n.text = (String.ofList [separator]).intercalate n.segments)
    ⟨fun h => ⟨h.1, h.2⟩, fun h => ⟨h.apart, h.spelled⟩⟩

theorem tellable_empty (separator : Char) : empty.Tellable separator :=
  ⟨fun _ h => (List.not_mem_nil h).elim, fun _ h => (List.not_mem_nil h).elim⟩

end Store

namespace ArtifactDirectory

open FileTree OnDemand.Path

variable {d : ArtifactDirectory} {t t' : FileTree} {cwd : Location} {n m : Name}

/-! ## Names that the list gives -/

theorem spelled_of_nameFor (hd : d.Sound) (hknown : d.known = []) {lines : List String}
    (hlines : ∀ l ∈ lines, isEntry l = true) (hn : n.startsWith "#" = true)
    (h : d.nameFor (d.nameIndex lines) (d.partsOf n.segments) = .ok n) :
    n.text = (String.ofList [d.separator]).intercalate n.segments := by
  unfold nameFor at h
  rw [bareParts_partsOf hd] at h
  simp only at h
  split at h
  · rename_i k hfound
    obtain rfl := Except.ok.inj h
    have hlisted := mem_nameIndex (mem_of_lookup hfound)
    rw [hknown, or_iff_left (List.not_mem_nil)] at hlisted
    have hentry := hlines _ hlisted
    simp [isEntry_text, hn] at hentry
  · cases hp : Name.parse ((String.ofList [d.separator]).intercalate n.segments) with
    | error e =>
      rw [hp] at h
      cases h
    | ok k =>
      rw [hp] at h
      obtain rfl := Except.ok.inj h
      exact Name.text_of_parse hp

/-! ## Directories that a history has made -/

/-- All files of the directory are lists or stand at the places of names, and the paths of these are not
too long. -/
structure Tidy (d : ArtifactDirectory) (cwd : Location) (t : FileTree) : Prop where
  keyed : t.Keyed
  reached : ∀ parts bytes, t.file? (d.location cwd ++ parts) = some bytes →
    t.isDir cwd d.root = true
  own : ∀ parts bytes, t.file? (d.location cwd ++ parts) = some bytes →
    parts = [namesFile] ∨ parts = [processorsFile] ∨ ∃ n : Name, parts = d.partsOf n.segments
  short : ∀ n bytes, t.file? (d.place cwd n) = some bytes →
    (d.root.joinAll (d.partsOf n.segments)).tooLong = false

/-- The files are those of a store, and the list has its names, but for those that it takes for
comments. -/
structure Mirrors (d : ArtifactDirectory) (cwd : Location) (t : FileTree) (s : Store) : Prop
    extends Tidy d cwd t where
  files : ∀ n bytes, t.file? (d.place cwd n) = some bytes →
    ∃ m, s.contains m = true ∧ m.segments = n.segments
  stored : ∀ n a, s.get? n = some a → t.file? (d.place cwd n) = some a.payload
  listed : ∀ line ∈ d.listAt t cwd namesFile, ∃ n, s.contains n = true ∧ n.text = line
  named : ∀ n, s.contains n = true → n.startsWith "#" = false →
    n.text ∈ d.listAt t cwd namesFile

/-- Others leave the directory alone: its files are the same, and it can still be reached. -/
structure Undisturbed (d : ArtifactDirectory) (cwd : Location) (t t' : FileTree) : Prop where
  keyed : t'.Keyed
  isDir : t.isDir cwd d.root = true → t'.isDir cwd d.root = true
  file? : ∀ parts, t'.file? (d.location cwd ++ parts) = t.file? (d.location cwd ++ parts)

theorem Tidy.undisturbed (h : d.Tidy cwd t) (hu : d.Undisturbed cwd t t') : d.Tidy cwd t' := by
  refine ⟨hu.keyed, fun parts bytes hf => ?_, fun parts bytes hf => ?_, fun n bytes hf => ?_⟩
  · rw [hu.file?] at hf
    exact hu.isDir (h.reached parts bytes hf)
  · rw [hu.file?] at hf
    exact h.own parts bytes hf
  · rw [place, hu.file?] at hf
    exact h.short n bytes hf

theorem Mirrors.undisturbed {s : Store} (h : d.Mirrors cwd t s) (hu : d.Undisturbed cwd t t') :
    d.Mirrors cwd t' s := by
  have hlist : d.listAt t' cwd namesFile = d.listAt t cwd namesFile := listAt_congr (hu.file? _)
  refine ⟨h.toTidy.undisturbed hu, fun n bytes hf => ?_, fun n a ha => ?_, ?_, ?_⟩
  · rw [place, hu.file?] at hf
    exact h.files n bytes hf
  · rw [place, hu.file?]
    exact h.stored n a ha
  · rw [hlist]
    exact h.listed
  · rw [hlist]
    exact h.named

theorem mirrors_empty (hk : t.Keyed) (h : ∀ parts, t.file? (d.location cwd ++ parts) = none) :
    d.Mirrors cwd t .empty := by
  have hlist : d.listAt t cwd namesFile = [] := by
    unfold listAt
    rw [h]
    rfl
  have hnone : ∀ {n bytes}, t.file? (d.place cwd n) ≠ some bytes := by
    intro n bytes hf
    rw [place, h] at hf
    cases hf
  refine ⟨⟨hk, fun parts bytes hf => ?_, fun parts bytes hf => ?_, fun n bytes hf => absurd hf hnone⟩,
    fun n bytes hf => absurd hf hnone, fun n a ha => ?_, fun line hl => ?_, fun n hn => ?_⟩
  · rw [h] at hf
    cases hf
  · rw [h] at hf
    cases hf
  · cases ha
  · rw [hlist] at hl
    cases hl
  · cases hn

/-! ## Opening -/

/-- What is loaded was saved under a name with the same segments. -/
theorem load_sound (hd : d.Sound) (hsep : Name.isSeparator d.separator = true) (ht : d.Tidy cwd t)
    {as : List Artifact} (h : d.load t cwd = .ok as) {a : Artifact} (ha : a ∈ as) :
    t.file? (d.place cwd a.name) = some a.payload ∧
      d.nameAt t cwd (d.partsOf a.name.segments) = .ok a.name := by
  by_cases hr : t.isDir cwd d.root = true
  · obtain ⟨parts, bytes, k, hfile, hparts, -, hname, rfl⟩ := (mem_load ht.keyed hr h).mp ha
    rw [name_artifactOf, payload_artifactOf]
    rcases ht.own parts bytes hfile with rfl | rfl | ⟨m, rfl⟩
    · simp [isArtifactFile, extension?_stem stem_namesFile] at hparts
    · simp [isArtifactFile, extension?_stem stem_processorsFile] at hparts
    · have hsegments := segments_of_nameFor hsep (bareParts_partsOf hd m) hname
      rw [← hsegments] at hfile hname
      exact ⟨hfile, hname⟩
  · have hnone : t.file? (d.location cwd) = none := by
      rw [← List.append_nil (d.location cwd)]
      cases hf : t.file? (d.location cwd ++ []) with
      | none => rfl
      | some bytes => exact absurd (ht.reached _ _ hf) hr
    rw [load_of_not_isDir (eq_false_of_ne_true hr) hnone] at h
    obtain rfl := Except.ok.inj h
    cases ha

theorem load_complete (hd : d.Sound) (ht : d.Tidy cwd t) {as : List Artifact}
    (h : d.load t cwd = .ok as) {bytes : ByteArray} (hf : t.file? (d.place cwd n) = some bytes)
    (hn : d.nameAt t cwd (d.partsOf n.segments) = .ok n) :
    ∃ a ∈ as, a.name = n ∧ a.payload = bytes := by
  have hr := ht.reached _ _ hf
  refine ⟨_, (mem_load ht.keyed hr h).mpr ⟨d.partsOf n.segments, bytes, n, hf,
    isArtifactFile_partsOf hd n, reached_none.mpr (ht.short n bytes hf), hn, rfl⟩, ?_, ?_⟩
  · exact name_artifactOf _ _ _
  · exact payload_artifactOf _ _ _

/-- In the mirror of a store whose names can be told apart each name comes out as it was. -/
theorem nameAt_of_mirrors (hd : d.Sound) (hknown : d.known = []) {s : Store}
    (hm : d.Mirrors cwd t s) (hs : s.Tellable d.separator) (hn : n ∈ s.names) :
    d.nameAt t cwd (d.partsOf n.segments) = .ok n := by
  -- whatever the list gives for these segments is a stored name, so it is this one
  have hone : ∀ k : Name, k.text ∈ d.listAt t cwd namesFile ∨ k ∈ d.known →
      k.segments = n.segments → k = n := by
    intro k hk hsegments
    rw [hknown, or_iff_left (List.not_mem_nil)] at hk
    obtain ⟨k', hk', htext⟩ := hm.listed _ hk
    obtain rfl : k' = k := Name.eq_of_text_eq htext
    exact hs.apart k' (Store.mem_names.mpr hk') n hn hsegments
  by_cases hstart : n.startsWith "#" = true
  · unfold nameAt nameFor
    rw [bareParts_partsOf hd]
    simp only
    split
    · rename_i k hk
      have hmem := mem_of_lookup hk
      rw [hone k (mem_nameIndex hmem) (segments_of_mem_nameIndex hmem)]
    · rw [← hs.spelled n hn hstart, Name.parse_text]
      rfl
  · exact nameFor_listed hd (hm.named n (Store.mem_names.mp hn) (eq_false_of_ne_true hstart)) hone

end ArtifactDirectory

end OnDemand
