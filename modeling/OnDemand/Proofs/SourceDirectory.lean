import OnDemand.Proofs.ArtifactDirectory
import OnDemand.Proofs.Path.Below
import OnDemand.SourceDirectory

/-!
# Where sources are looked for

What is left of a name without the leading text of a repository has segments that are ordinary names,
also where the leading text ends inside a segment. There is one unless the leading text is the whole
name (`cutLeading_eq_empty_iff`). So the path of a source lies below the root but for the one name that
is the leading text (`path_below_iff`): the path of that is the root with the extension, and a lookup of
it reads a file beside the directory of sources (`leading_name_escapes`).
-/

namespace OnDemand

namespace SourceDirectory

open FileTree OnDemand.Path

variable {d : SourceDirectory} {n : Name} {t : FileTree} {cwd : Location} {p : Path}

/-! ## Without the leading text -/

theorem exists_append_cutLeading (text : String) (leading : Option String) :
    ∃ front, text.toList = front ++ (cutLeading text leading).toList := by
  cases leading with
  | none => exact ⟨[], rfl⟩
  | some start =>
    simp only [cutLeading]
    split
    · rename_i hpre
      obtain ⟨rest, hrest⟩ := List.isPrefixOf_iff_prefix.mp hpre
      refine ⟨start.toList, ?_⟩
      rw [String.toList_ofList, ← hrest, ← String.length_toList, List.drop_left]
    · exact ⟨[], rfl⟩

/-- Nothing is left of a name exactly if the leading text is all of it. -/
theorem cutLeading_eq_empty_iff {leading : Option String} :
    cutLeading n.text leading = "" ↔ leading = some n.text := by
  cases leading with
  | none => simp [cutLeading, n.text_ne_empty]
  | some start =>
    simp only [cutLeading]
    split
    · rename_i hpre
      obtain ⟨rest, hrest⟩ := List.isPrefixOf_iff_prefix.mp hpre
      rw [← hrest, ← String.length_toList, List.drop_left, Option.some.injEq, ← String.toList_inj,
        ← String.toList_inj, ← hrest]
      simp
    · rename_i hpre
      refine ⟨fun h => absurd h n.text_ne_empty, fun h => ?_⟩
      rw [Option.some.inj h] at hpre
      exact absurd (List.isPrefixOf_iff_prefix.mpr (List.prefix_refl _)) hpre

/-- The names on the way from the root to the source of a name, without the extension. -/
def bareParts (d : SourceDirectory) (n : Name) : List String :=
  (Name.segmentsOf (cutLeading n.text d.leading)).filter (· ≠ "")

theorem stem_of_mem_bareParts {s : String} (h : s ∈ d.bareParts n) : Stem s := by
  obtain ⟨hs, hne⟩ := List.mem_filter.mp h
  exact stem_of_mem_segmentsOf hs (by simpa using hne)

/-- There is a way unless the leading text is the whole name: what is left of another name ends as the
name does, in no separator. -/
theorem bareParts_eq_nil_iff : d.bareParts n = [] ↔ d.leading = some n.text := by
  rw [← cutLeading_eq_empty_iff]
  constructor
  · intro hnil
    by_contra hne
    have hleft : (cutLeading n.text d.leading).toList ≠ [] := mt String.toList_eq_nil_iff.mp hne
    obtain ⟨front, hfront⟩ := exists_append_cutLeading n.text d.leading
    have hlast := List.getLast?_eq_some_getLast hleft
    have hsep : Name.isSeparator ((cutLeading n.text d.leading).toList.getLast hleft) = false := by
      apply Name.not_separator_of_getLast? (n := n)
      rw [hfront, List.getLast?_append, hlast, Option.some_or]
    obtain ⟨piece, hpiece, hmem⟩ := Text.exists_mem_pieces hsep (List.getLast_mem hleft)
    have hpart : String.ofList piece ∈ d.bareParts n := by
      refine List.mem_filter.mpr ⟨List.mem_map_of_mem hpiece, ?_⟩
      have : piece ≠ [] := List.ne_nil_of_mem hmem
      simpa using this
    rw [hnil] at hpart
    cases hpart
  · intro hempty
    rw [bareParts, hempty]
    rfl

/-! ## Paths -/

theorem noSlash_of_not_mem (h : '/' ∉ d.extension.toList) : ∀ c ∈ d.extension.toList, c ≠ '/' := by
  rintro c hc rfl
  exact h hc

theorem pathFor_eq (hslash : '/' ∉ d.extension.toList) : d.pathFor n = .ok
    (if d.extension = "" then d.root.joinAll (d.bareParts n)
      else (d.root.joinAll (d.bareParts n)).replaceExtension d.extension) := by
  have hany := any_isSlash.mpr (noSlash_of_not_mem hslash)
  unfold pathFor setExtension
  simp only [hany, bareParts]
  split <;> rfl

theorem pathFor_concat (hslash : '/' ∉ d.extension.toList) {init : List String} {last : String}
    (h : d.bareParts n = init ++ [last]) :
    d.pathFor n = .ok (d.root.joinAll (init ++ [last ++ suffix d.extension])) := by
  have hlast : Stem last := stem_of_mem_bareParts (d := d) (n := n) (by rw [h]; simp)
  rw [pathFor_eq hslash, h]
  by_cases he : d.extension = ""
  · rw [if_pos he, suffix, if_pos he, String.append_empty]
  · rw [if_neg he, joinAll_concat, joinAll_concat,
      replaceExtension_stem _ hlast (noSlash_of_not_mem hslash)]

theorem part_of_mem_concat (hslash : '/' ∉ d.extension.toList) {init : List String} {last : String}
    (h : d.bareParts n = init ++ [last]) : ∀ s ∈ init ++ [last ++ suffix d.extension], Path.Part s := by
  have hstem : ∀ s ∈ init ++ [last], Stem s := fun s hs => stem_of_mem_bareParts (by rw [h]; exact hs)
  intro s hs
  rcases List.mem_append.mp hs with hs | hs
  · exact (hstem s (List.mem_append_left _ hs)).part
  · rw [List.mem_singleton] at hs
    rw [hs]
    exact (hstem last (by simp)).part_suffix (noSlash_of_not_mem hslash)

theorem exists_pathFor_below (hslash : '/' ∉ d.extension.toList) (h : d.leading ≠ some n.text) :
    ∃ parts, parts ≠ [] ∧ (∀ s ∈ parts, Path.Part s) ∧ d.pathFor n = .ok (d.root.joinAll parts) := by
  obtain hnil | ⟨init, last, hlast⟩ := (d.bareParts n).eq_nil_or_concat'
  · exact absurd (bareParts_eq_nil_iff.mp hnil) h
  · exact ⟨_, by simp, part_of_mem_concat hslash hlast, pathFor_concat hslash hlast⟩

theorem pathFor_leading (hslash : '/' ∉ d.extension.toList) (h : d.leading = some n.text) :
    ∃ p, d.pathFor n = .ok p ∧ (p = d.root ∨ ∃ init r s,
      d.root.components = init ++ [.name r] ∧ p.components = init ++ [.name s]) := by
  rw [pathFor_eq hslash, bareParts_eq_nil_iff.mpr h]
  by_cases he : d.extension = ""
  · exact ⟨d.root, by rw [if_pos he]; rfl, Or.inl rfl⟩
  · exact ⟨d.root.replaceExtension d.extension, by rw [if_neg he]; rfl,
      components_replaceExtension d.root he (noSlash_of_not_mem hslash)⟩

/-! ## Lookups -/

theorem toUTF8_of_fromUTF8? {bytes : ByteArray} {text : String}
    (h : String.fromUTF8? bytes = some text) : bytes = text.toUTF8 := by
  unfold String.fromUTF8? at h
  split at h
  · obtain rfl := Option.some.inj h
    rfl
  · cases h

theorem file?_of_fetch {u : SourceUnit} (hp : d.pathFor n = .ok p)
    (h : d.fetch t cwd n = .ok (some u)) :
    t.file? (destination cwd p.components) = some u.text.toUTF8 := by
  unfold fetch at h
  rw [hp] at h
  simp only at h
  split at h
  · rename_i text hread
    obtain rfl := Option.some.inj (Except.ok.inj h)
    unfold FileTree.readText FileTree.read at hread
    split at hread
    · cases hread
    · rename_i bytes hlook
      split at hlook
      · cases hlook
      · cases hlook
      · rename_i l bytes' hfile
        obtain rfl := Except.ok.inj hlook
        obtain ⟨hloc, hentry⟩ := look_file_spec hfile
        split at hread
        · rename_i s hs
          obtain rfl := Except.ok.inj hread
          -- the text was read from these bytes, so they are its own
          rw [← locate_eq hloc, file?_eq_some.mpr hentry, toUTF8_of_fromUTF8? hs]
        · cases hread
  · cases h
  · cases h
  · cases h

/-- With an extension that has no slash every name has a path, which lies below the root exactly if the
leading text is not the whole name. Then a lookup gives the text of a file below the directory that the
root leads to; else the path is the root or beside it. -/
theorem path_below_iff (hslash : '/' ∉ d.extension.toList) : ∃ p, d.pathFor n = .ok p ∧
    (p.Below d.root ↔ d.leading ≠ some n.text) ∧
    (d.leading ≠ some n.text → ∀ t cwd u, d.fetch t cwd n = .ok (some u) →
      ∃ parts, parts ≠ [] ∧ t.file? (destination cwd d.root.components ++ parts) = some u.text.toUTF8) ∧
    (d.leading = some n.text → p = d.root ∨ ∃ init r s,
      d.root.components = init ++ [.name r] ∧ p.components = init ++ [.name s]) := by
  by_cases h : d.leading = some n.text
  · obtain ⟨p, hp, hbeside⟩ := pathFor_leading hslash h
    have hlen : p.components.length ≤ d.root.components.length := by
      obtain rfl | ⟨init, r, s, hroot, hpath⟩ := hbeside
      · exact Nat.le_refl _
      · rw [hroot, hpath, List.length_append, List.length_append]
        exact Nat.le_refl _
    exact ⟨p, hp, ⟨fun hbelow => absurd hbelow (not_below_of_length hlen), fun hne => absurd h hne⟩,
      fun hne => absurd h hne, fun _ => hbeside⟩
  · obtain ⟨parts, hne, hparts, hp⟩ := exists_pathFor_below hslash h
    refine ⟨_, hp, ⟨fun _ => h, fun _ => below_joinAll _ hne hparts⟩, fun _ t cwd u hu => ?_,
      fun heq => absurd heq h⟩
    refine ⟨parts, hne, ?_⟩
    rw [← file?_of_fetch hp hu, components_joinAll_parts _ hparts, destination_names]

namespace Example

def sources : SourceDirectory :=
  ⟨⟨"/w"⟩, "src", some "remote"⟩

def remote : Name :=
  ⟨"remote", by decide +kernel⟩

def remotely : Name :=
  ⟨"remotely.a", by decide +kernel⟩

def beside : FileTree :=
  ⟨[(["w.src"], .file "beside".toUTF8), (["w"], .dir)]⟩

end Example

open Example in
theorem path_below_iff_remotely :
    ∃ p, sources.pathFor remotely = .ok p ∧ p.Below sources.root := by
  obtain ⟨p, hp, hbelow, -⟩ := path_below_iff (d := sources) (n := remotely) (by decide +kernel)
  exact ⟨p, hp, hbelow.mpr (by decide +kernel)⟩

open Example in
/-- The name that is the leading text is looked for beside the directory of sources, and the file that
is there is its source. -/
theorem leading_name_escapes : sources.pathFor remote = .ok ⟨"/w.src"⟩ ∧
    ¬ (Path.mk "/w.src").Below sources.root ∧
    sources.fetch beside [] remote = .ok (some ⟨remote, "beside", .remote⟩) :=
  ⟨by decide +kernel, not_below_of_length (by decide +kernel), by decide +kernel⟩

end SourceDirectory

end OnDemand
