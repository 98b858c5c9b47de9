import Mathlib.Data.List.Forall2
import OnDemand.Proofs.FileTree.Reach
import OnDemand.ArtifactDirectory

/-!
# What a directory of artifacts holds

The file of a name stands at a place that only the segments of the name decide, and the segments
are read back from it (`bareParts_partsOf`). The lists give back the lines that were written, but for
those that say nothing (`listed_closed`), and `load` gives one artifact for each file that has the
extension (`mem_load`).
-/

namespace OnDemand.ArtifactDirectory

open FileTree OnDemand.Path

variable {d : ArtifactDirectory} {t t' : FileTree} {cwd : Location} {file : String}

/-- A directory that is somewhere, with an extension that has neither slashes nor dots. -/
structure Sound (d : ArtifactDirectory) : Prop where
  root : d.root.text ≠ ""
  extension : Stem d.extension

/-! ## Places -/

def location (d : ArtifactDirectory) (cwd : Location) : Location :=
  destination cwd d.root.components

def partsOf (d : ArtifactDirectory) (segments : List String) : List String :=
  segments.dropLast ++ [segments.getLast?.getD "" ++ "." ++ d.extension]

def place (d : ArtifactDirectory) (cwd : Location) (n : Name) : Location :=
  d.location cwd ++ d.partsOf n.segments

theorem stem_of_mem_segments {n : Name} {s : String} (h : s ∈ n.segments) : Stem s :=
  stem_of_mem_segmentsOf h (Name.ne_empty_of_mem_segments h)

theorem exists_segments_eq (n : Name) :
    ∃ init last, n.segments = init ++ [last] ∧ (∀ s ∈ init, Stem s) ∧ Stem last := by
  have hsplit := List.dropLast_concat_getLast n.segments_ne_nil
  have hstem : ∀ s ∈ n.segments.dropLast ++ [n.segments.getLast n.segments_ne_nil], Stem s := by
    rw [hsplit]
    exact fun s hs => stem_of_mem_segments hs
  exact ⟨_, _, hsplit.symm, fun s hs => hstem s (List.mem_append_left _ hs), hstem _ (by simp)⟩

theorem partsOf_concat (init : List String) (last : String) :
    d.partsOf (init ++ [last]) = init ++ [last ++ "." ++ d.extension] := by
  simp [partsOf]

/-- The way to the file for some segments, with any extension. The empty one adds nothing. -/
def fileParts (d : ArtifactDirectory) (segments : List String) : List String :=
  segments.dropLast ++ [segments.getLast?.getD "" ++ suffix d.extension]

theorem fileParts_concat (init : List String) (last : String) :
    d.fileParts (init ++ [last]) = init ++ [last ++ suffix d.extension] := by
  simp [fileParts]

theorem fileParts_of_sound (hd : d.Sound) (segments : List String) :
    d.fileParts segments = d.partsOf segments := by
  unfold fileParts partsOf suffix
  rw [if_neg hd.extension.nonempty, ← String.append_assoc]

theorem part_of_mem_fileParts (hext : ∀ c ∈ d.extension.toList, c ≠ '/') (n : Name) {s : String}
    (h : s ∈ d.fileParts n.segments) : Part s := by
  obtain ⟨init, last, hn, hinit, hlast⟩ := exists_segments_eq n
  rw [hn, fileParts_concat] at h
  rcases List.mem_append.mp h with h | h
  · exact (hinit s h).part
  · rw [List.mem_singleton] at h
    rw [h]
    exact hlast.part_suffix hext

theorem pathFor_eq (n : Name) : d.pathFor n =
    if d.extension.toList.any isSlash then .error ⟨d.extension⟩
    else .ok (d.root.joinAll (d.fileParts n.segments)) := by
  obtain ⟨init, last, hn, -, hlast⟩ := exists_segments_eq n
  unfold pathFor setExtension
  split
  · rfl
  · rename_i hslash
    have hext := any_isSlash.mp (eq_false_of_ne_true hslash)
    rw [hn, fileParts_concat, joinAll_concat, joinAll_concat, replaceExtension_stem _ hlast hext]

theorem pathFor_spec {n : Name} {p : Path} (h : d.pathFor n = .ok p) :
    (∀ c ∈ d.extension.toList, c ≠ '/') ∧ p = d.root.joinAll (d.fileParts n.segments) := by
  rw [pathFor_eq] at h
  split at h
  · cases h
  · rename_i hslash
    exact ⟨any_isSlash.mp (eq_false_of_ne_true hslash), (Except.ok.inj h).symm⟩

theorem destination_listPath (hroot : d.root.text ≠ "") (hs : Part file) :
    destination cwd (d.listPath file).components = d.location cwd ++ [file] := by
  rw [listPath, components_join hroot hs, destination, List.foldl_append]
  rfl

theorem bareParts_partsOf (hd : d.Sound) (n : Name) :
    bareParts (d.partsOf n.segments) = n.segments := by
  obtain ⟨init, last, hn, -, hlast⟩ := exists_segments_eq n
  rw [hn, partsOf_concat]
  unfold bareParts
  simp [dropExtension_append hlast hd.extension]

theorem isArtifactFile_partsOf (hd : d.Sound) (n : Name) :
    d.isArtifactFile (d.partsOf n.segments) = true := by
  obtain ⟨init, last, hn, -, hlast⟩ := exists_segments_eq n
  rw [hn, partsOf_concat]
  unfold isArtifactFile
  simp [extension?_append hlast hd.extension]

theorem partsOf_inj (hd : d.Sound) {n m : Name} :
    d.partsOf n.segments = d.partsOf m.segments ↔ n.segments = m.segments :=
  ⟨fun h => by rw [← bareParts_partsOf hd n, h, bareParts_partsOf hd m], fun h => by rw [h]⟩

theorem place_inj (hd : d.Sound) {n m : Name} :
    d.place cwd n = d.place cwd m ↔ n.segments = m.segments := by
  rw [place, place, List.append_cancel_left_eq, partsOf_inj hd]

theorem partsOf_ne_of_stem (hd : d.Sound) {s : String} (hs : Stem s) (n : Name) :
    d.partsOf n.segments ≠ [s] := by
  intro h
  have hfile := isArtifactFile_partsOf hd n
  rw [h] at hfile
  simp [isArtifactFile, extension?_stem hs] at hfile

theorem place_ne_of_stem (hd : d.Sound) {s : String} (hs : Stem s) (n : Name) :
    d.place cwd n ≠ d.location cwd ++ [s] :=
  fun h => partsOf_ne_of_stem hd hs n (List.append_cancel_left h)

/-! ## Lists of names -/

theorem stem_namesFile : Stem namesFile :=
  stem_of_all (by decide +kernel) (by decide +kernel)

theorem stem_processorsFile : Stem processorsFile :=
  stem_of_all (by decide +kernel) (by decide +kernel)

def isEntry (line : String) : Bool :=
  line ≠ "" && line.toList.head? != some '#'

def listAt (d : ArtifactDirectory) (t : FileTree) (cwd : Location) (file : String) : List String :=
  match (t.file? (d.location cwd ++ [file])).bind String.fromUTF8? with
  | some text => listed text
  | none => []

theorem listed_eq (text : String) : listed text = ((linesOf text).map trimmed).filter isEntry := rfl

theorem isEntry_text (n : Name) : isEntry n.text = !n.startsWith "#" := by
  obtain ⟨c, cs, hcs⟩ := List.exists_cons_of_ne_nil (mt String.toList_eq_nil_iff.mp n.text_ne_empty)
  unfold isEntry Name.startsWith
  rw [hcs]
  by_cases hc : c = '#'
  · simp [n.text_ne_empty, hc]
  · have hhead : (some c != some '#') = true := by simpa using hc
    simp [n.text_ne_empty, hhead, Ne.symm hc, List.isPrefixOf]

theorem isEntry_of_mem_listed {text line : String} (h : line ∈ listed text) : isEntry line = true :=
  (List.mem_filter.mp h).2

theorem isLine_of_mem_listed {text line : String} (h : line ∈ listed text) :
    Text.IsLine line.toList := by
  obtain ⟨raw, hraw, rfl⟩ := List.mem_map.mp (List.mem_filter.mp h).1
  obtain ⟨cs, hcs, rfl⟩ := List.mem_map.mp hraw
  unfold trimmed
  rw [String.toList_ofList, String.toList_ofList]
  exact Text.isLine_trim (Text.not_newline_of_mem_lines hcs)

/-- Of lines that were written, those that say something are read back. -/
theorem listed_closed {ls : List String} (hne : ls ≠ []) (h : ∀ l ∈ ls, Text.IsLine l.toList) :
    listed ("\n".intercalate ls ++ "\n") = ls.filter isEntry := by
  have hlines : linesOf ("\n".intercalate ls ++ "\n") = ls := by
    have htext : ("\n".intercalate ls ++ "\n").toList =
        ['\n'].intercalate (ls.map String.toList) ++ ['\n'] := by
      rw [String.toList_append, String.toList_intercalate]
      rfl
    unfold linesOf
    rw [htext, Text.lines_closed (by simpa using hne)]
    · simp
    · intro l hl
      obtain ⟨s, hs, rfl⟩ := List.mem_map.mp hl
      exact h s hs
  have htrim : ls.map trimmed = ls := by
    rw [List.map_congr_left (g := id), List.map_id]
    intro l hl
    unfold trimmed
    rw [(h l hl).trimmed, String.ofList_toList]
    rfl
  rw [listed_eq, hlines, htrim]

theorem isEntry_of_mem_listAt {line : String} (h : line ∈ d.listAt t cwd file) :
    isEntry line = true := by
  unfold listAt at h
  split at h
  · exact isEntry_of_mem_listed h
  · cases h

theorem isLine_of_mem_listAt {line : String} (h : line ∈ d.listAt t cwd file) :
    Text.IsLine line.toList := by
  unfold listAt at h
  split at h
  · exact isLine_of_mem_listed h
  · cases h

theorem listAt_congr (h : t'.file? (d.location cwd ++ [file]) = t.file? (d.location cwd ++ [file])) :
    d.listAt t' cwd file = d.listAt t cwd file := by
  unfold listAt
  rw [h]

theorem readList_spec (hs : Part file) (hr : t.isDir cwd d.root = true)
    {lines : List String} (h : d.readList t cwd file = .ok lines) :
    lines = d.listAt t cwd file := by
  obtain ⟨l, hloc, hdir⟩ := isDir_iff.mp hr
  have hl : l = d.location cwd := locate_eq hloc
  subst hl
  -- the list lies in the directory itself, or its path cannot be gone
  rcases locate_join (text_ne_empty_of_isDir hr) hs hloc hdir with hj | ⟨err, hj, herr⟩
  · unfold readList readText FileTree.read look listPath at h
    simp only [hj] at h
    unfold listAt file?
    cases hentry : t.entry? (d.location cwd ++ [file]) with
    | none =>
      simp only [hentry] at h
      exact (Except.ok.inj h).symm
    | some e =>
      cases e with
      | dir =>
        simp only [hentry] at h
        cases h
      | file bytes =>
        simp only [hentry] at h
        by_cases hmeans : meansDirectory (d.root.join ⟨file⟩) = true
        · simp only [if_pos hmeans] at h
          cases h
        · simp only [if_neg hmeans] at h
          simp only [Option.bind_some]
          cases htext : String.fromUTF8? bytes with
          | none =>
            simp only [htext] at h
            cases h
          | some text =>
            simp only [htext] at h
            exact (Except.ok.inj h).symm
  · unfold readList readText FileTree.read look listPath at h
    simp only [hj] at h
    cases err <;> first | exact absurd rfl herr | cases h

/-! ## Growing lists -/

theorem mem_extended {x : String} : ∀ (names : List Name) (lines : List String),
    x ∈ extended lines names ↔ x ∈ lines ∨ ∃ n ∈ names, n.text = x
  | [], lines => by simp [extended]
  | n :: ns, lines => by
    have ih := mem_extended (x := x) ns
    unfold extended at ih ⊢
    rw [List.foldl_cons, ih]
    by_cases hn : n.text ∈ lines
    · rw [if_pos hn]
      constructor
      · rintro (h | ⟨m, hm, rfl⟩)
        · exact Or.inl h
        · exact Or.inr ⟨m, by simp [hm], rfl⟩
      · rintro (h | ⟨m, hm, rfl⟩)
        · exact Or.inl h
        · rcases List.mem_cons.mp hm with rfl | hm
          · exact Or.inl hn
          · exact Or.inr ⟨m, hm, rfl⟩
    · rw [if_neg hn]
      simp [or_assoc, eq_comm]

theorem prefix_extended : ∀ (names : List Name) (lines : List String),
    lines <+: extended lines names
  | [], lines => List.prefix_rfl
  | n :: ns, lines => by
    have ih := prefix_extended ns
    unfold extended at ih ⊢
    rw [List.foldl_cons]
    refine List.IsPrefix.trans ?_ (ih _)
    split
    · exact List.prefix_rfl
    · exact List.prefix_append _ _

theorem extended_cons (n : Name) (names : List Name) (lines : List String) :
    extended lines (n :: names) =
      extended (if n.text ∈ lines then lines else lines ++ [n.text]) names :=
  rfl

theorem extended_append (lines : List String) (names more : List Name) :
    extended (extended lines names) more = extended lines (names ++ more) := by
  unfold extended
  rw [List.foldl_append]

theorem filter_extended : ∀ (names : List Name) (lines : List String),
    (extended lines names).filter isEntry =
      extended (lines.filter isEntry) (names.filter fun n => isEntry n.text)
  | [], lines => rfl
  | n :: ns, lines => by
    rw [extended_cons, filter_extended ns]
    cases hentry : isEntry n.text with
    | true =>
      rw [List.filter_cons, if_pos hentry, extended_cons]
      have hmem : n.text ∈ lines.filter isEntry ↔ n.text ∈ lines := by simp [hentry]
      by_cases hn : n.text ∈ lines
      · rw [if_pos hn, if_pos (hmem.mpr hn)]
      · rw [if_neg hn, if_neg (mt hmem.mp hn), List.filter_append]
        simp [hentry]
    | false =>
      rw [List.filter_cons, if_neg (ne_true_of_eq_false hentry)]
      split
      · rfl
      · rw [List.filter_append]
        simp [hentry]

theorem isLine_of_mem_extended {lines : List String} (h : ∀ l ∈ lines, Text.IsLine l.toList)
    {names : List Name} {l : String} (hl : l ∈ extended lines names) : Text.IsLine l.toList := by
  rcases (mem_extended _ _).mp hl with hl | ⟨n, _, rfl⟩
  · exact h l hl
  · exact n.isLine_text

theorem fromUTF8?_toUTF8 (s : String) : String.fromUTF8? s.toUTF8 = some s := by
  unfold String.fromUTF8?
  simp [String.fromUTF8, s.isValidUTF8]

/-! ## Loading -/

theorem map_eq_ok {ε α β : Type} {f : α → β} {x : Except ε α} {b : β} :
    x.map f = .ok b ↔ ∃ a, x = .ok a ∧ f a = b := by
  cases x <;> simp [Except.map]

theorem find?_reverse_eq_some {α : Type} {p : α → Bool} {l : List α} {b : α} :
    l.reverse.find? p = some b ↔
      p b = true ∧ ∃ before after, l = before ++ b :: after ∧ ∀ c ∈ after, p c = false := by
  rw [List.find?_eq_some_iff_append]
  refine and_congr_right fun _ => ⟨?_, ?_⟩
  · rintro ⟨after, before, hsplit, hafter⟩
    refine ⟨before.reverse, after.reverse, ?_, fun c hc => ?_⟩
    · rw [← List.reverse_reverse l, hsplit]
      simp
    · simpa using hafter c (List.mem_reverse.mp hc)
  · rintro ⟨before, after, rfl, hafter⟩
    refine ⟨after.reverse, before.reverse, by simp, fun c hc => ?_⟩
    simpa using hafter c (by simpa using hc)

def artifactOf (n : Name) (bytes : ByteArray) (isProcessor : Bool) : Artifact :=
  if isProcessor then (Artifact.plain n bytes).withCapability .extensionProcessor
  else Artifact.plain n bytes

theorem name_artifactOf (n : Name) (bytes : ByteArray) (b : Bool) :
    (artifactOf n bytes b).name = n := by
  cases b <;> rfl

theorem payload_artifactOf (n : Name) (bytes : ByteArray) (b : Bool) :
    (artifactOf n bytes b).payload = bytes := by
  cases b <;> rfl

theorem isProcessor_artifactOf (n : Name) (bytes : ByteArray) (b : Bool) :
    (artifactOf n bytes b).isProcessor = b := by
  cases b <;> rfl

/-- The operating system goes the way from the directory through some parts. -/
def Reached (d : ArtifactDirectory) (deny : Denials) (parts : List String) : Prop :=
  d.barred? deny parts = none

theorem barred?_none (parts : List String) : d.barred? .none parts =
    if (d.root.joinAll parts).tooLong then some .nameTooLong else none := by
  simp [barred?, Denials.none]

theorem unopened?_none (parts : List String) : d.unopened? .none parts = d.barred? .none parts := by
  simp [unopened?, Denials.none]

theorem reached_none {parts : List String} :
    d.Reached .none parts ↔ (d.root.joinAll parts).tooLong = false := by
  unfold Reached
  rw [barred?_none]
  split <;> simp [*]

section
variable {index : List (List String × Name)} {processors : List (List String)} {parts : List String}
  {bytes : ByteArray} {deny : Denials} {entries : List (List String × Entry)}
  {files : List (List String × ByteArray)} {as : List Artifact}

/-- The file of an entry, if it has the extension and the way to it can be gone. -/
def taken? (d : ArtifactDirectory) (deny : Denials) :
    List String × Entry → Option (List String × ByteArray)
  | (parts, .file bytes) =>
    if d.isArtifactFile parts && (d.barred? deny parts).isNone then some (parts, bytes) else none
  | (_, .dir) => none

theorem taken?_eq_some {entry : List String × Entry} :
    d.taken? deny entry = some (parts, bytes) ↔
      entry = (parts, .file bytes) ∧ d.isArtifactFile parts = true ∧
        d.barred? deny parts = none := by
  obtain ⟨ps, e⟩ := entry
  cases e with
  | dir => simp [taken?]
  | file bs =>
    simp only [taken?, Option.ite_none_right_eq_some, Option.some.injEq, Prod.mk.injEq,
      Entry.file.injEq, Bool.and_eq_true, Option.isNone_iff_eq_none]
    constructor
    · rintro ⟨h, rfl, rfl⟩
      exact ⟨⟨rfl, rfl⟩, h⟩
    · rintro ⟨⟨rfl, rfl⟩, h⟩
      exact ⟨h, rfl, rfl⟩

def LoadedAs (d : ArtifactDirectory) (index : List (List String × Name))
    (processors : List (List String)) (file : List String × ByteArray) (a : Artifact) : Prop :=
  ∃ n, d.nameFor index file.1 = .ok n ∧
    a = artifactOf n file.2 (processors.contains (bareParts file.1))

/-- All directories can be opened, each file that is taken can be read, and it is loaded as one
artifact, in order. Otherwise nothing is loaded. -/
theorem loadEntries_eq_ok : d.loadEntries deny index processors entries = .ok as ↔
    (∀ parts, (parts, Entry.dir) ∈ entries → d.unopened? deny parts = none) ∧
    (∀ file ∈ entries.filterMap (d.taken? deny), file.1 ∉ deny.opening) ∧
    List.Forall₂ (d.LoadedAs index processors) (entries.filterMap (d.taken? deny)) as := by
  -- an entry is a directory, a file that is taken, or one that both sides pass over
  induction entries generalizing as with
  | nil => simp [loadEntries, eq_comm]
  | cons entry entries ih =>
    obtain ⟨parts, e⟩ := entry
    cases e with
    | dir =>
      rw [List.filterMap_cons_none rfl]
      unfold loadEntries
      cases hopen : d.unopened? deny parts with
      | some e => simp [hopen]
      | none => simp [ih, hopen]
    | file bytes =>
      unfold loadEntries
      by_cases htaken : (d.isArtifactFile parts && (d.barred? deny parts).isNone) = true
      · have hfile : d.taken? deny (parts, .file bytes) = some (parts, bytes) := if_pos htaken
        rw [if_pos htaken, List.filterMap_cons_some hfile]
        cases hname : d.nameFor index parts with
        | error e => simp [LoadedAs, hname, List.forall₂_cons_left_iff]
        | ok n =>
          by_cases hdenied : parts ∈ deny.opening
          · simp [hdenied]
          · simp only [if_neg hdenied]
            constructor
            · intro h
              obtain ⟨rest, hrest, rfl⟩ := map_eq_ok.mp h
              obtain ⟨hdirs, hopen, hfiles⟩ := ih.mp hrest
              exact ⟨fun ps hps => hdirs ps (by simpa using hps),
                List.forall_mem_cons.mpr ⟨hdenied, hopen⟩,
                .cons ⟨n, hname, by simp [artifactOf]⟩ hfiles⟩
            · rintro ⟨hdirs, hopen, hfiles⟩
              obtain ⟨a, rest, ⟨m, hm, ha⟩, hrest, rfl⟩ := List.forall₂_cons_left_iff.mp hfiles
              obtain rfl := Except.ok.inj (hname.symm.trans hm)
              refine map_eq_ok.mpr ⟨rest, ih.mpr ⟨fun ps hps => hdirs ps (by simp [hps]),
                (List.forall_mem_cons.mp hopen).2, hrest⟩, ?_⟩
              simp [ha, artifactOf]
      · have hfile : d.taken? deny (parts, .file bytes) = none := if_neg htaken
        rw [if_neg htaken, List.filterMap_cons_none hfile, ih]
        simp

theorem mem_of_loaded (h : List.Forall₂ (d.LoadedAs index processors) files as) {a : Artifact} :
    a ∈ as ↔ ∃ file ∈ files, d.LoadedAs index processors file a := by
  induction h with
  | nil => simp
  | cons hfile _ ih =>
    rw [List.mem_cons, ih]
    simp only [List.exists_mem_cons_iff]
    refine or_congr_left ⟨?_, ?_⟩
    · rintro rfl
      exact hfile
    · rintro ⟨m, hm, rfl⟩
      obtain ⟨n, hn, rfl⟩ := hfile
      obtain rfl := Except.ok.inj (hn.symm.trans hm)
      rfl

end

theorem mem_of_lookup {index : List (List String × Name)} {segments : List String} {n : Name}
    (h : index.lookup segments = some n) : (segments, n) ∈ index := by
  obtain ⟨before, after, rfl, -⟩ := List.lookup_eq_some_iff.mp h
  simp

theorem segments_of_mem_nameIndex {lines : List String} {e : List String × Name}
    (h : e ∈ d.nameIndex lines) : e.2.segments = e.1 := by
  unfold nameIndex at h
  rw [List.mem_reverse, List.mem_map] at h
  obtain ⟨n, _, rfl⟩ := h
  rfl

theorem segments_of_nameFor (hsep : Name.isSeparator d.separator = true) {lines : List String}
    {n m : Name} {parts : List String} (hparts : bareParts parts = m.segments)
    (h : d.nameFor (d.nameIndex lines) parts = .ok n) : n.segments = m.segments := by
  unfold nameFor at h
  rw [hparts] at h
  simp only at h
  split at h
  · rename_i hfound
    obtain rfl := Except.ok.inj h
    exact segments_of_mem_nameIndex (mem_of_lookup hfound)
  · cases hp : Name.parse ((String.ofList [d.separator]).intercalate m.segments) with
    | error e =>
      rw [hp] at h
      cases h
    | ok k =>
      rw [hp] at h
      obtain rfl := Except.ok.inj h
      unfold Name.segments
      rw [Name.text_of_parse hp, Name.segmentsOf_intercalate hsep m.segments_ne_nil]
      · rfl
      · exact fun s hs x hx => Name.not_separator_of_mem_segmentsOf hs hx

theorem mem_nameIndex {lines : List String} {e : List String × Name}
    (h : e ∈ d.nameIndex lines) : e.2.text ∈ lines ∨ e.2 ∈ d.known := by
  unfold nameIndex at h
  rw [List.mem_reverse, List.mem_map] at h
  obtain ⟨k, hk, rfl⟩ := h
  rcases List.mem_append.mp hk with hk | hk
  · obtain ⟨line, hline, hparse⟩ := List.mem_filterMap.mp hk
    rw [Name.text_of_parse? hparse]
    exact Or.inl hline
  · exact Or.inr hk

theorem lookup_nameIndex {n : Name} {lines : List String} (h : n.text ∈ lines) :
    ∃ k, (d.nameIndex lines).lookup n.segments = some k := by
  have hmem : (n.segments, n) ∈ d.nameIndex lines := by
    unfold nameIndex
    rw [List.mem_reverse, List.mem_map]
    exact ⟨n, List.mem_append_left _ (List.mem_filterMap.mpr ⟨_, h, Name.parse?_text n⟩), rfl⟩
  exact Option.isSome_iff_exists.mp (List.lookup_isSome_iff.mpr ⟨_, hmem, by simp⟩)

theorem nameFor_listed (hd : d.Sound) {n : Name} {lines : List String} (h : n.text ∈ lines)
    (hone : ∀ m : Name, m.text ∈ lines ∨ m ∈ d.known → m.segments = n.segments → m = n) :
    d.nameFor (d.nameIndex lines) (d.partsOf n.segments) = .ok n := by
  obtain ⟨k, hk⟩ := lookup_nameIndex (d := d) h
  have hmem := mem_of_lookup hk
  unfold nameFor
  rw [bareParts_partsOf hd]
  simp only [hk]
  rw [hone k (mem_nameIndex hmem) (segments_of_mem_nameIndex hmem)]

abbrev nameAt (d : ArtifactDirectory) (t : FileTree) (cwd : Location) (parts : List String) :
    Except DirectoryError Name :=
  d.nameFor (d.nameIndex (d.listAt t cwd namesFile)) parts

theorem look_of_isDir (hr : t.isDir cwd d.root = true) :
    t.look cwd d.root = .ok (d.location cwd, .dir) := by
  obtain ⟨l, hloc, hdir⟩ := isDir_iff.mp hr
  obtain rfl : l = d.location cwd := locate_eq hloc
  simp only [look, hloc, hdir]

abbrev marked (d : ArtifactDirectory) (t : FileTree) (cwd : Location) (parts : List String) : Bool :=
  (((d.listAt t cwd processorsFile).filterMap Name.parse?).map Name.segments).contains
    (bareParts parts)

/-- What is loaded from the file that some parts lead to, if it has the extension and the way to it can
be gone. -/
abbrev LoadsFrom (d : ArtifactDirectory) (cwd : Location) (t : FileTree) (parts : List String)
    (a : Artifact) (deny : Denials := .none) : Prop :=
  ∃ bytes n, t.file? (d.location cwd ++ parts) = some bytes ∧ d.isArtifactFile parts = true ∧
    d.Reached deny parts ∧ d.nameAt t cwd parts = .ok n ∧
    a = artifactOf n bytes (d.marked t cwd parts)

section
variable {deny : Denials} {l : Location} {file : String} {as : List Artifact}

abbrev walk (t : FileTree) (l : Location) : List (List String × Entry) :=
  ([], .dir) :: t.entriesBelow l

abbrev takenFiles (d : ArtifactDirectory) (t : FileTree) (cwd : Location) (deny : Denials) :
    List (List String × ByteArray) :=
  (walk t (d.location cwd)).filterMap (d.taken? deny)

theorem mem_takenFiles (hk : t.Keyed) {parts : List String} {bytes : ByteArray} :
    (parts, bytes) ∈ d.takenFiles t cwd deny ↔ t.file? (d.location cwd ++ parts) = some bytes ∧
      d.isArtifactFile parts = true ∧ d.Reached deny parts := by
  rw [takenFiles, List.mem_filterMap]
  simp only [taken?_eq_some, walk, List.mem_cons, mem_entriesBelow hk, file?_eq_some]
  constructor
  · rintro ⟨entry, hmem, rfl, hparts, hreached⟩
    rcases hmem with hroot | ⟨-, hentry⟩
    · cases hroot
    · exact ⟨hentry, hparts, hreached⟩
  · rintro ⟨hentry, hparts, hreached⟩
    refine ⟨(parts, .file bytes), Or.inr ⟨?_, hentry⟩, rfl, hparts, hreached⟩
    rintro rfl
    cases hparts

theorem nodup_takenFiles (hk : t.Keyed) (d : ArtifactDirectory) (cwd : Location) (deny : Denials) :
    ((d.takenFiles t cwd deny).map (·.1)).Nodup := by
  have hwalk : ((walk t (d.location cwd)).map (·.1)).Nodup := by
    refine List.nodup_cons.mpr ⟨fun hmem => ?_, nodup_entriesBelow hk⟩
    obtain ⟨⟨parts, e⟩, he, rfl⟩ := List.mem_map.mp hmem
    exact ((mem_entriesBelow hk).mp he).1 rfl
  refine hwalk.sublist ?_
  rw [takenFiles]
  generalize walk t (d.location cwd) = entries
  induction entries with
  | nil => exact .slnil
  | cons entry entries ih =>
    cases htaken : d.taken? deny entry with
    | none =>
      rw [List.filterMap_cons_none htaken]
      exact ih.cons _
    | some f =>
      obtain ⟨parts, bytes⟩ := f
      obtain ⟨rfl, -⟩ := taken?_eq_some.mp htaken
      rw [List.filterMap_cons_some htaken]
      exact ih.cons_cons _

theorem readListIn_none (t : FileTree) (cwd l : Location) (file : String) :
    d.readListIn t cwd .none l file = d.readList t cwd file := by
  simp [readListIn, Denials.none]

theorem readList_of_readListIn {lines : List String}
    (h : d.readListIn t cwd deny l file = .ok lines) : d.readList t cwd file = .ok lines := by
  unfold readListIn at h
  split at h
  · cases h
  · exact h

theorem load_spec (hr : t.isDir cwd d.root = true) (h : d.load t cwd deny = .ok as) :
    ∃ loaded, d.loadEntries deny (d.nameIndex (d.listAt t cwd namesFile))
          (((d.listAt t cwd processorsFile).filterMap Name.parse?).map Name.segments)
          (walk t (d.location cwd)) = .ok loaded ∧
        as = loaded.mergeSort fun a b => !decide (b.name < a.name) := by
  unfold load at h
  rw [look_of_isDir hr] at h
  simp only at h
  split at h
  · cases h
  · rename_i processorLines hprocessors
    split at h
    · cases h
    · rename_i nameLines hnames
      -- both lists were read, so they are what is below the directory
      rw [← readList_spec stem_namesFile.part hr (readList_of_readListIn hnames),
        ← readList_spec stem_processorsFile.part hr (readList_of_readListIn hprocessors)]
      cases hload : d.loadEntries deny (d.nameIndex nameLines)
          ((processorLines.filterMap Name.parse?).map Name.segments)
          (walk t (d.location cwd)) with
      | error e =>
        rw [hload] at h
        cases h
      | ok loaded =>
        rw [hload] at h
        exact ⟨loaded, rfl, (Except.ok.inj h).symm⟩

/-- Loading gives one artifact for each file that has the extension and can be reached. -/
theorem mem_load (hk : t.Keyed) (hr : t.isDir cwd d.root = true)
    (h : d.load t cwd deny = .ok as) {a : Artifact} :
    a ∈ as ↔ ∃ parts, d.LoadsFrom cwd t parts a deny := by
  obtain ⟨loaded, hload, rfl⟩ := load_spec hr h
  obtain ⟨-, -, hfiles⟩ := loadEntries_eq_ok.mp hload
  rw [(List.mergeSort_perm _ _).mem_iff, mem_of_loaded hfiles]
  simp only [LoadedAs]
  constructor
  · rintro ⟨⟨parts, bytes⟩, hmem, n, hrest⟩
    obtain ⟨hfile, hparts, hreached⟩ := (mem_takenFiles hk).mp hmem
    exact ⟨parts, bytes, n, hfile, hparts, hreached, hrest⟩
  · rintro ⟨parts, bytes, n, hfile, hparts, hreached, hrest⟩
    exact ⟨(parts, bytes), (mem_takenFiles hk).mpr ⟨hfile, hparts, hreached⟩, n, hrest⟩

theorem load_of_sorted {processorLines nameLines : List String}
    {entries : List (List String × Entry)}
    (hlook : t.look cwd d.root = .ok (l, .dir))
    (hprocessors : d.readList t cwd processorsFile = .ok processorLines)
    (hnames : d.readList t cwd namesFile = .ok nameLines)
    (hbelow : t.entriesBelow l = entries)
    (hload : d.loadEntries .none (d.nameIndex nameLines)
      ((processorLines.filterMap Name.parse?).map Name.segments) (([], .dir) :: entries) = .ok as)
    (hsorted : as.Pairwise fun a b => (!decide (b.name < a.name)) = true) :
    d.load t cwd = .ok as := by
  unfold load
  simp only [hlook, readListIn_none, hprocessors, hnames, hbelow, hload]
  exact congrArg Except.ok (List.mergeSort_of_pairwise hsorted)

end

theorem load_of_not_isDir (hr : t.isDir cwd d.root = false) (hf : t.file? (d.location cwd) = none) :
    d.load t cwd = .ok [] := by
  unfold load
  split
  · rfl
  · rename_i l e hlook
    -- a file where the directory should be is no directory either
    unfold look at hlook
    split at hlook
    · cases hlook
    · rename_i l' hloc
      obtain rfl : l' = d.location cwd := locate_eq hloc
      split at hlook
      · cases hlook
      · rename_i hdir
        rw [isDir_iff.mpr ⟨_, hloc, hdir⟩] at hr
        cases hr
      · rename_i bytes hfile
        rw [file?_eq_some.mpr hfile] at hf
        cases hf

end OnDemand.ArtifactDirectory
