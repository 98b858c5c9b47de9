import Mathlib.Algebra.GroupWithZero.Nat
import OnDemand.Proofs.Text
import OnDemand.Path

/-!
# Joining and renaming

A part joined to a path is one more component (`components_joinAll`), and the parent of the longer
path has the components of the path again (`parent?_join`). The extension of a part can be set and
read back: what `replaceExtension` puts after a name without dots, `extension?` tells and
`dropExtension` takes away.
-/

namespace OnDemand.Path

theorem tooLong_eq_false {p : Path} : p.tooLong = false ↔ p.text.utf8ByteSize < 4096 := by
  simp [tooLong]

/-- A text that is one component of a path, a name. -/
structure Part (s : String) : Prop where
  noSlash : ∀ c ∈ s.toList, c ≠ '/'
  nonempty : s ≠ ""
  notHere : s ≠ "."
  notUp : s ≠ ".."

/-- A text with neither slashes nor dots, so a part without an extension. -/
structure Stem (s : String) : Prop where
  nonempty : s ≠ ""
  noSlash : ∀ c ∈ s.toList, c ≠ '/'
  noDot : ∀ c ∈ s.toList, c ≠ '.'

theorem stem_of_all {s : String} (hne : s ≠ "")
    (h : s.toList.all (fun c => c != '/' && c != '.') = true) : Stem s := by
  have hall : ∀ c ∈ s.toList, c ≠ '/' ∧ c ≠ '.' := by simpa using h
  exact ⟨hne, fun c hc => (hall c hc).1, fun c hc => (hall c hc).2⟩

theorem stem_of_mem_segmentsOf {text s : String} (h : s ∈ Name.segmentsOf text) (hne : s ≠ "") :
    Stem s := by
  have hsep : ∀ c ∈ s.toList, c ≠ '/' ∧ c ≠ '.' := by
    intro c hc
    have := Name.not_separator_of_mem_segmentsOf h hc
    simpa [Name.isSeparator] using this
  exact ⟨hne, fun c hc => (hsep c hc).1, fun c hc => (hsep c hc).2⟩

theorem any_isSlash {cs : List Char} : cs.any isSlash = false ↔ ∀ c ∈ cs, c ≠ '/' := by
  rw [List.any_eq_false]
  constructor
  · intro h c hc
    simpa [isSlash] using h c hc
  · intro h c hc
    simpa [isSlash] using h c hc

theorem Stem.part {s : String} (h : Stem s) : Part s := by
  refine ⟨h.noSlash, h.nonempty, ?_, ?_⟩
  · rintro rfl
    exact h.noDot '.' (by decide) rfl
  · rintro rfl
    exact h.noDot '.' (by decide) rfl

theorem Part.noSep {s : String} (h : Part s) : ∀ c ∈ s.toList, isSlash c = false := by
  intro c hc
  have := h.noSlash c hc
  simpa [isSlash] using this

theorem Part.ofPiece {s : String} (h : Part s) :
    Component.ofPiece s.toList = some (.name s) := by
  have hne : s.toList ≠ [] := mt String.toList_eq_nil_iff.mp h.nonempty
  have hhere : s.toList ≠ ['.'] := fun he => h.notHere (String.toList_inj.mp he)
  have hup : s.toList ≠ ['.', '.'] := fun he => h.notUp (String.toList_inj.mp he)
  unfold Component.ofPiece
  rw [if_neg hne, if_neg hhere, if_neg hup, String.ofList_toList]

theorem Part.relative {s : String} (h : Part s) : isAbsolute ⟨s⟩ = false := by
  unfold isAbsolute
  cases hs : s.toList with
  | nil => rfl
  | cons c cs =>
    have hc := h.noSlash c (by rw [hs]; simp)
    simpa using hc

theorem Stem.part_append {s : String} (h : Stem s) {e : String} (he : ∀ c ∈ e.toList, c ≠ '/') :
    Part (s ++ "." ++ e) := by
  obtain ⟨c, cs, hs⟩ := List.exists_cons_of_ne_nil (mt String.toList_eq_nil_iff.mp h.nonempty)
  have hc : c ≠ '.' := h.noDot c (by rw [hs]; simp)
  have hhead : (s ++ "." ++ e).toList.head? = some c := by simp [hs]
  constructor
  · intro d hd
    simp only [String.toList_append, List.mem_append] at hd
    rcases hd with (hd | hd) | hd
    · exact h.noSlash d hd
    · rintro rfl
      exact absurd hd (by decide)
    · exact he d hd
  · intro h0
    rw [h0] at hhead
    cases hhead
  · intro h0
    rw [h0] at hhead
    exact hc (Option.some.inj hhead).symm
  · intro h0
    rw [h0] at hhead
    exact hc (Option.some.inj hhead).symm

def suffix (e : String) : String :=
  if e = "" then "" else "." ++ e

theorem Stem.part_suffix {s : String} (h : Stem s) {e : String} (he : ∀ c ∈ e.toList, c ≠ '/') :
    Part (s ++ suffix e) := by
  unfold suffix
  split
  · rw [String.append_empty]
    exact h.part
  · rw [← String.append_assoc]
    exact h.part_append he

/-! ## Joining -/

def stand (p : Path) : List Char :=
  if p.text = "" || p.text.toList.getLast? == some '/' then p.text.toList else p.text.toList ++ ['/']

theorem text_join {p q : Path} (hq : q.isAbsolute = false) :
    (p.join q).text.toList = p.stand ++ q.text.toList := by
  unfold join stand
  simp only [hq, Bool.false_eq_true, if_false]
  split <;> simp

theorem stand_closed (p : Path) : p.stand = [] ∨ ∃ cs, p.stand = cs ++ ['/'] := by
  unfold stand
  split
  · rename_i h
    rcases Bool.or_eq_true_iff.mp h with h | h
    · left
      simpa using h
    · right
      exact List.getLast?_eq_some_iff.mp (by simpa using h)
  · exact Or.inr ⟨_, rfl⟩

theorem head?_pieces_append (xs : List Char) (zs : List (List Char)) :
    (Text.pieces isSlash xs ++ zs).head? = (Text.pieces isSlash xs).head? := by
  obtain ⟨q, qs, hq⟩ := List.exists_cons_of_ne_nil (Text.pieces_ne_nil isSlash xs)
  rw [hq]
  rfl

theorem filterMap_pieces_nil :
    (Text.pieces isSlash []).filterMap Component.ofPiece = [] := rfl

theorem componentsOf_slash (xs ys : List Char) :
    componentsOf (xs ++ '/' :: ys) =
      componentsOf (xs ++ ['/']) ++ (Text.pieces isSlash ys).filterMap Component.ofPiece := by
  have hpieces : ∀ zs, Text.pieces isSlash (xs ++ '/' :: zs) =
      Text.pieces isSlash xs ++ Text.pieces isSlash zs := Text.pieces_append_sep rfl xs
  have hhead : ∀ zs, (xs ++ '/' :: zs).head? = xs.head?.or (some '/') := fun zs =>
    List.head?_append
  unfold componentsOf
  simp only [hpieces, hhead, head?_pieces_append, List.filterMap_append, filterMap_pieces_nil,
    List.append_nil, List.append_assoc]

theorem componentsOf_closed {xs : List Char} (h : xs ≠ []) :
    componentsOf (xs ++ ['/']) = componentsOf xs := by
  have hpieces : Text.pieces isSlash (xs ++ ['/']) =
      Text.pieces isSlash xs ++ Text.pieces isSlash [] := Text.pieces_append_sep rfl xs []
  have hhead : (xs ++ ['/']).head? = xs.head? := by
    obtain ⟨c, cs, rfl⟩ := List.exists_cons_of_ne_nil h
    rfl
  unfold componentsOf
  simp only [hpieces, hhead, head?_pieces_append, List.filterMap_append, filterMap_pieces_nil,
    List.append_nil]

theorem componentsOf_stand {p : Path} (hp : p.text ≠ "") : componentsOf p.stand = p.components := by
  have hne : p.text.toList ≠ [] := mt String.toList_eq_nil_iff.mp hp
  unfold stand
  split
  · rfl
  · exact componentsOf_closed hne

theorem stand_ne_nil {p : Path} (hp : p.text ≠ "") : p.stand ≠ [] := by
  unfold stand
  split <;> simp [hp]

theorem components_join {p : Path} (hp : p.text ≠ "") {s : String} (hs : Part s) :
    (p.join ⟨s⟩).components = p.components ++ [.name s] := by
  obtain h0 | ⟨cs, hcs⟩ := stand_closed p
  · exact absurd h0 (stand_ne_nil hp)
  · have hpieces : Text.pieces isSlash s.toList = [s.toList] :=
      Text.pieces_eq_singleton isSlash _ hs.noSep
    rw [components, text_join hs.relative, ← componentsOf_stand hp, hcs]
    simp [componentsOf_slash cs s.toList, hpieces, hs.ofPiece]

theorem text_join_ne_empty {p : Path} (hp : p.text ≠ "") (q : Path) : (p.join q).text ≠ "" := by
  intro h
  unfold join at h
  split at h
  · rename_i hq
    unfold isAbsolute at hq
    rw [h] at hq
    cases hq
  · split at h
    · exact hp (String.append_eq_empty_iff.mp h).1
    · exact hp (String.append_eq_empty_iff.mp (String.append_eq_empty_iff.mp h).1).1

theorem joinAll_cons (p : Path) (s : String) (parts : List String) :
    p.joinAll (s :: parts) = (p.join ⟨s⟩).joinAll parts := rfl

theorem joinAll_concat (p : Path) (parts : List String) (s : String) :
    p.joinAll (parts ++ [s]) = (p.joinAll parts).join ⟨s⟩ := by
  simp [joinAll]

/-- The components of a path that goes further down are its own and the parts. -/
theorem components_joinAll : ∀ {parts : List String} {p : Path}, p.text ≠ "" →
    (∀ s ∈ parts, Part s) → (p.joinAll parts).components = p.components ++ parts.map .name
  | [], p, _, _ => by simp [joinAll]
  | s :: parts, p, hp, hs => by
    rw [joinAll_cons, components_joinAll (text_join_ne_empty hp _) fun r hr => hs r (by simp [hr]),
      components_join hp (hs s (by simp))]
    simp

theorem size_joinAll : ∀ {parts : List String} {p : Path}, p.text ≠ "" →
    p.text.toList.getLast? ≠ some '/' → (∀ s ∈ parts, Part s) →
    (p.joinAll parts).text.utf8ByteSize =
      p.text.utf8ByteSize + (parts.map fun s => s.utf8ByteSize + 1).sum
  | [], p, _, _, _ => by simp [joinAll]
  | s :: parts, p, hp, hlast, hs => by
    have hpart := hs s (by simp)
    have hjoin : p.join ⟨s⟩ = ⟨p.text ++ "/" ++ s⟩ := by
      have hrel : isAbsolute ⟨s⟩ = false := hpart.relative
      simp [join, hrel, hp, hlast]
    have hlast' : (p.join ⟨s⟩).text.toList.getLast? ≠ some '/' := by
      have hne : s.toList ≠ [] := mt String.toList_eq_nil_iff.mp hpart.nonempty
      rw [hjoin, String.toList_append, List.getLast?_append, List.getLast?_eq_some_getLast hne]
      simpa using hpart.noSlash _ (List.getLast_mem hne)
    rw [joinAll_cons, size_joinAll (text_join_ne_empty hp _) hlast' fun r hr => hs r (by simp [hr]),
      hjoin]
    simp only [String.utf8ByteSize_append, List.map_cons, List.sum_cons]
    have hslash : "/".utf8ByteSize = 1 := rfl
    omega

theorem eq_of_toList_eq : ∀ {p q : Path}, p.text.toList = q.text.toList → p = q
  | ⟨_⟩, ⟨_⟩, h => congrArg Path.mk (String.toList_inj.mp h)

theorem isAbsolute_join {q r : Path} (hq : q.text ≠ "") (hr : r.isAbsolute = false) :
    (q.join r).isAbsolute = q.isAbsolute := by
  obtain ⟨c, cs, hcs⟩ := List.exists_cons_of_ne_nil (mt String.toList_eq_nil_iff.mp hq)
  have hhead : (q.join r).text.toList.head? = q.text.toList.head? := by
    rw [text_join hr, stand]
    split <;> rw [hcs] <;> rfl
  unfold isAbsolute
  rw [hhead]

theorem stand_join (p : Path) {q : Path} (hrel : q.isAbsolute = false) (hq : q.text ≠ "") :
    (p.join q).stand = p.stand ++ q.stand := by
  have hne : q.text.toList ≠ [] := mt String.toList_eq_nil_iff.mp hq
  have htext : (p.join q).text ≠ "" := by
    intro h
    have := text_join hrel (p := p)
    rw [h] at this
    simp [hq] at this
  have hlast : (p.join q).text.toList.getLast? = q.text.toList.getLast? := by
    rw [text_join hrel, List.getLast?_append, List.getLast?_eq_some_getLast hne, Option.some_or]
  rw [stand, stand.eq_1 q, hlast, text_join hrel]
  split <;> simp_all

theorem join_join (p : Path) {q r : Path} (hrel : q.isAbsolute = false) (hq : q.text ≠ "")
    (hr : r.isAbsolute = false) : p.join (q.join r) = (p.join q).join r := by
  have hrel' : (q.join r).isAbsolute = false := (isAbsolute_join hq hr).trans hrel
  apply eq_of_toList_eq
  rw [text_join hrel', text_join hr, text_join hr, stand_join p hrel hq, List.append_assoc]

theorem join_joinAll (p : Path) {q : Path} (hrel : q.isAbsolute = false) (hq : q.text ≠ "")
    {parts : List String} (hparts : ∀ s ∈ parts, Part s) :
    p.join (q.joinAll parts) = (p.join q).joinAll parts := by
  induction parts generalizing q with
  | nil => rfl
  | cons s parts ih =>
    have hs : isAbsolute ⟨s⟩ = false := (hparts s (by simp)).relative
    rw [joinAll_cons, joinAll_cons, ih ((isAbsolute_join hq hs).trans hrel) (text_join_ne_empty hq _)
      fun r hr => hparts r (by simp [hr]), join_join p hrel hq hs]

theorem join_joinAll_empty (p : Path) {parts : List String} (hne : parts ≠ [])
    (hparts : ∀ s ∈ parts, Part s) : p.join (joinAll ⟨""⟩ parts) = p.joinAll parts := by
  cases parts with
  | nil => exact absurd rfl hne
  | cons s parts =>
    have hs := hparts s (by simp)
    have hfirst : (Path.mk "").join ⟨s⟩ = ⟨s⟩ := by
      apply eq_of_toList_eq
      rw [text_join hs.relative]
      rfl
    rw [joinAll_cons, joinAll_cons, hfirst]
    exact join_joinAll p hs.relative hs.nonempty fun r hr => hparts r (by simp [hr])

/-! ## Extensions -/

theorem dropTail_part (before : List Char) {s : String} (hs : Part s) :
    dropTail (before ++ s.toList).reverse = (before ++ s.toList).reverse := by
  have hne : s.toList ≠ [] := mt String.toList_eq_nil_iff.mp hs.nonempty
  have hhere : s.toList ≠ ['.'] := fun he => hs.notHere (String.toList_inj.mp he)
  rw [List.reverse_append]
  cases hr : s.toList.reverse with
  | nil => exact absurd (by simpa using hr) hne
  | cons c cs =>
    have hslash : ∀ d ∈ c :: cs, d ≠ '/' := by
      intro d hd
      rw [← hr, List.mem_reverse] at hd
      exact hs.noSlash d hd
    rw [List.cons_append]
    unfold dropTail
    split
    · rename_i h
      exact absurd (List.cons.inj h).1 (hslash c (by simp))
    · rename_i h
      obtain ⟨rfl, htail⟩ := List.cons.inj h
      -- a point that ends a name has another character of it in front
      cases cs with
      | nil =>
        have := congrArg List.reverse hr
        exact absurd (by simpa using this) hhere
      | cons d ds => exact absurd (List.cons.inj htail).1 (hslash d (by simp))
    · rfl

theorem splitLast_append {before : List Char} (hb : before = [] ∨ ∃ cs, before = cs ++ ['/'])
    {s : String} (hs : Part s) : splitLast (before ++ s.toList) = some (before, s.toList) := by
  have hname : ∀ c ∈ s.toList.reverse, decide (c ≠ '/') = true := by
    intro c hc
    simpa using hs.noSlash c (List.mem_reverse.mp hc)
  have htake : (s.toList.reverse ++ before.reverse).takeWhile (· ≠ '/') = s.toList.reverse := by
    rw [List.takeWhile_append_of_pos hname]
    obtain rfl | ⟨cs, rfl⟩ := hb <;> simp
  have hdrop : (s.toList.reverse ++ before.reverse).dropWhile (· ≠ '/') = before.reverse := by
    rw [List.dropWhile_append_of_pos hname]
    obtain rfl | ⟨cs, rfl⟩ := hb <;> simp
  have hne : s.toList ≠ [] := mt String.toList_eq_nil_iff.mp hs.nonempty
  have hhere : s.toList ≠ ['.'] := fun he => hs.notHere (String.toList_inj.mp he)
  have hup : s.toList ≠ ['.', '.'] := fun he => hs.notUp (String.toList_inj.mp he)
  unfold splitLast
  rw [dropTail_part before hs, List.reverse_append]
  simp only [htake, hdrop, List.reverse_reverse]
  simp [hne, hhere, hup]

theorem splitName_stem {s : String} (hs : Stem s) : splitName s.toList = (s.toList, none) := by
  have hname : ∀ c ∈ s.toList.reverse, decide (c ≠ '.') = true := by
    intro c hc
    simpa using hs.noDot c (List.mem_reverse.mp hc)
  unfold splitName
  have htake : s.toList.reverse.takeWhile (· ≠ '.') = s.toList.reverse := by
    rw [← List.append_nil s.toList.reverse, List.takeWhile_append_of_pos hname]
    rfl
  rw [htake]
  simp

theorem splitName_append {s : String} (hs : Stem s) {e : List Char} (he : ∀ c ∈ e, c ≠ '.') :
    splitName (s.toList ++ '.' :: e) = (s.toList, some e) := by
  have hname : ∀ c ∈ e.reverse, decide (c ≠ '.') = true := by
    intro c hc
    simpa using he c (List.mem_reverse.mp hc)
  have hne : s.toList ≠ [] := mt String.toList_eq_nil_iff.mp hs.nonempty
  have hrev : (s.toList ++ '.' :: e).reverse = e.reverse ++ '.' :: s.toList.reverse := by simp
  have hlen : e.length ≠ s.toList.length + (e.length + 1) := by omega
  unfold splitName
  rw [hrev, List.takeWhile_append_of_pos hname, List.dropWhile_append_of_pos hname]
  simp [hne, hlen]

theorem text_append_dot (s e : String) : (s ++ "." ++ e).toList = s.toList ++ '.' :: e.toList := by
  simp

theorem replaceExtension_stem (q : Path) {s e : String} (hs : Stem s) (he : ∀ c ∈ e.toList, c ≠ '/') :
    (q.join ⟨s⟩).replaceExtension e = q.join ⟨s ++ suffix e⟩ := by
  have hsplit : splitLast (q.join ⟨s⟩).text.toList = some (q.stand, s.toList) := by
    rw [text_join hs.part.relative]
    exact splitLast_append (stand_closed q) hs.part
  have htext := text_join (p := q) (hs.part_suffix he).relative
  unfold replaceExtension
  rw [hsplit]
  simp only [splitName_stem hs]
  apply eq_of_toList_eq
  rw [htext]
  unfold suffix
  split <;> simp

theorem extension?_append {s e : String} (hs : Stem s) (he : Stem e) :
    extension? ⟨s ++ "." ++ e⟩ = some e := by
  have hsplit := splitLast_append (Or.inl rfl) (hs.part_append he.noSlash)
  rw [List.nil_append] at hsplit
  unfold extension?
  rw [hsplit, Option.bind_some, text_append_dot, splitName_append hs he.noDot, Option.map_some,
    String.ofList_toList]

theorem extension?_stem {s : String} (hs : Stem s) : extension? ⟨s⟩ = none := by
  have hsplit := splitLast_append (Or.inl rfl) hs.part
  rw [List.nil_append] at hsplit
  unfold extension?
  rw [hsplit, Option.bind_some, splitName_stem hs, Option.map_none]

theorem noDot_of_extension? {p : Path} {e : String} (h : p.extension? = some e) :
    ∀ c ∈ e.toList, c ≠ '.' := by
  unfold extension? at h
  obtain ⟨⟨before, name⟩, -, hname⟩ := Option.bind_eq_some_iff.mp h
  obtain ⟨cs, hcs, rfl⟩ := Option.map_eq_some_iff.mp hname
  unfold splitName at hcs
  simp only at hcs
  split at hcs
  · cases hcs
  · obtain rfl := Option.some.inj hcs
    intro c hc
    rw [String.toList_ofList, List.mem_reverse] at hc
    simpa using List.all_eq_true.mp List.all_takeWhile c hc

theorem dropExtension_append {s e : String} (hs : Stem s) (he : Stem e) :
    dropExtension ⟨s ++ "." ++ e⟩ = ⟨s⟩ := by
  -- what is left without the extension ends in the dot, which is an extension of no letters
  have hcut : String.ofList ((s ++ "." ++ e).toList.take ((s ++ "." ++ e).length - e.length)) =
      s ++ "." ++ "" := by
    have hlen : (s ++ "." ++ e).length - e.length = (s.toList ++ ['.']).length := by
      rw [String.length_append, Nat.add_sub_cancel, ← String.length_toList]
      simp
    have hsplit : (s ++ "." ++ e).toList = (s.toList ++ ['.']) ++ e.toList := by simp
    rw [hlen, hsplit, List.take_left']
    · simp
    · rfl
  have hlast := splitLast_append (Or.inl rfl) (hs.part_append (e := "") (by simp))
  rw [List.nil_append, text_append_dot] at hlast
  unfold dropExtension
  rw [extension?_append hs he]
  simp only [hcut]
  unfold replaceExtension
  rw [text_append_dot, hlast]
  simp [splitName_append hs]

theorem dropExtension_stem {s : String} (hs : Stem s) : dropExtension ⟨s⟩ = ⟨s⟩ := by
  have hlast := splitLast_append (Or.inl rfl) hs.part
  rw [List.nil_append] at hlast
  unfold dropExtension
  rw [extension?_stem hs]
  simp only
  unfold replaceExtension
  rw [hlast]
  simp [splitName_stem hs]

/-! ## Parents -/

theorem dropTail_suffix (cs : List Char) : dropTail cs <:+ cs := by
  fun_induction dropTail cs with
  | case1 cs ih => exact ih.trans (List.suffix_cons _ _)
  | case2 cs ih => exact ih.trans ((List.suffix_cons _ _).trans (List.suffix_cons _ _))
  | case3 cs => exact List.suffix_rfl

theorem componentsOf_closed_here {xs : List Char} (h : xs ≠ []) :
    componentsOf (xs ++ ['/', '.']) = componentsOf xs := by
  rw [componentsOf_slash xs ['.'], componentsOf_closed h]
  exact List.append_nil _

theorem componentsOf_dropTail (cs : List Char) :
    (dropTail cs ≠ [] → componentsOf (dropTail cs).reverse = componentsOf cs.reverse) ∧
      (dropTail cs = [] → cs ≠ [] → componentsOf cs.reverse = [.root]) := by
  -- a slash at the end, a point behind a slash, or nothing to cut off
  fun_induction dropTail cs with
  | case1 cs ih =>
    rw [List.reverse_cons]
    refine ⟨fun h => ?_, fun h _ => ?_⟩
    · have hne : cs.reverse ≠ [] := by
        rintro h0
        rw [List.reverse_eq_nil_iff.mp h0] at h
        exact h rfl
      rw [componentsOf_closed hne]
      exact ih.1 h
    · by_cases hcs : cs = []
      · rw [hcs]
        rfl
      · rw [componentsOf_closed (by simpa using hcs)]
        exact ih.2 h hcs
  | case2 cs ih =>
    rw [List.reverse_cons, List.reverse_cons, List.append_assoc, List.singleton_append]
    refine ⟨fun h => ?_, fun h _ => ?_⟩
    · have hne : cs.reverse ≠ [] := by
        rintro h0
        rw [List.reverse_eq_nil_iff.mp h0] at h
        exact h rfl
      rw [componentsOf_closed_here hne]
      exact ih.1 h
    · by_cases hcs : cs = []
      · rw [hcs]
        rfl
      · rw [componentsOf_closed_here (by simpa using hcs)]
        exact ih.2 h hcs
  | case3 cs _ _ => exact ⟨fun _ => rfl, fun h hne => absurd h hne⟩

/-- A path without what does not count at its end: what the parent of a longer path is. -/
def tidied (p : Path) : Path :=
  if dropTail p.stand.reverse = [] then ⟨"/"⟩ else ⟨String.ofList (dropTail p.stand.reverse).reverse⟩

theorem parent?_join {p : Path} (hp : p.text ≠ "") {s : String} (hs : Part s) :
    (p.join ⟨s⟩).parent? = some p.tidied := by
  have hlast : (p.join ⟨s⟩).components.getLast? = some (.name s) := by
    rw [components_join hp hs]
    simp
  have hkept : dropTail (p.join ⟨s⟩).text.toList.reverse = s.toList.reverse ++ p.stand.reverse := by
    rw [text_join hs.relative, dropTail_part _ hs, List.reverse_append]
  have hbefore : (s.toList.reverse ++ p.stand.reverse).dropWhile (· ≠ '/') = p.stand.reverse := by
    rw [List.dropWhile_append_of_pos]
    · obtain h0 | ⟨cs, hcs⟩ := stand_closed p
      · rw [h0]
        rfl
      · rw [hcs]
        simp
    · intro c hc
      simpa using hs.noSlash c (List.mem_reverse.mp hc)
  have hne : p.stand.reverse ≠ [] := by simpa using stand_ne_nil hp
  unfold parent?
  rw [hlast]
  simp only [hkept, hbefore]
  unfold tidied
  split <;> simp_all

theorem components_tidied {p : Path} (hp : p.text ≠ "") : p.tidied.components = p.components := by
  have hcut := componentsOf_dropTail p.stand.reverse
  rw [List.reverse_reverse, componentsOf_stand hp] at hcut
  unfold tidied
  split
  · rename_i h
    rw [hcut.2 h (by simpa using stand_ne_nil hp)]
    rfl
  · rename_i h
    rw [components, String.toList_ofList]
    exact hcut.1 h

theorem text_tidied_ne_empty (p : Path) : p.tidied.text ≠ "" := by
  unfold tidied
  split
  · exact fun h => absurd h (by decide)
  · rename_i h
    simpa using h

theorem dropTail_stand (p : Path) :
    dropTail p.stand.reverse = dropTail p.text.toList.reverse := by
  unfold stand
  split
  · rfl
  · rw [List.reverse_append, List.reverse_singleton, List.singleton_append, dropTail]

theorem tidied_spec (p : Path) : (∃ rest, p.tidied.text ++ rest = p.text) ∨ p.tidied.text = "/" := by
  unfold tidied
  split
  · exact Or.inr rfl
  · left
    obtain ⟨rest, hrest⟩ := List.reverse_prefix.mpr (dropTail_suffix p.text.toList.reverse)
    rw [List.reverse_reverse] at hrest
    refine ⟨String.ofList rest, ?_⟩
    rw [dropTail_stand, ← String.ofList_append, hrest, String.ofList_toList]

theorem tidied_join (p : Path) {s : String} (hs : Part s) : (p.join ⟨s⟩).tidied = p.join ⟨s⟩ := by
  have hkept : dropTail (p.join ⟨s⟩).stand.reverse = (p.join ⟨s⟩).text.toList.reverse := by
    rw [dropTail_stand, text_join hs.relative, dropTail_part _ hs]
  have hne : (p.join ⟨s⟩).text.toList.reverse ≠ [] := by
    have : s.toList ≠ [] := mt String.toList_eq_nil_iff.mp hs.nonempty
    rw [text_join hs.relative]
    simp [this]
  unfold tidied
  rw [hkept, if_neg hne, List.reverse_reverse, String.ofList_toList]

theorem dropTail_head (cs r : List Char) : dropTail cs ≠ '/' :: r ∧ dropTail cs ≠ '.' :: '/' :: r := by
  fun_induction dropTail cs with
  | case1 cs ih => exact ih
  | case2 cs ih => exact ih
  | case3 cs hslash hdot => exact ⟨hslash r, hdot r⟩

theorem pieces_part {last : List Char} (hslash : ∀ c ∈ last, c ≠ '/') :
    Text.pieces isSlash last = [last] :=
  Text.pieces_eq_singleton isSlash _ fun c hc => by simpa [isSlash] using hslash c hc

theorem dropLast_componentsOf {last : List Char} (hslash : ∀ c ∈ last, c ≠ '/') :
    (componentsOf last).dropLast = [] := by
  have hhead : last.head? ≠ some '/' := fun h => hslash _ (List.mem_of_head? h) rfl
  by_cases hhere : last = ['.']
  · rw [hhere]
    rfl
  · have hhere : [last].head? ≠ some ['.'] := by simpa using hhere
    unfold componentsOf
    simp only [pieces_part hslash, if_neg hhead, if_neg hhere, List.nil_append, List.filterMap_cons]
    split <;> rfl

theorem dropLast_componentsOf_slash (xs : List Char) {last : List Char} (hslash : ∀ c ∈ last, c ≠ '/')
    (hne : last ≠ []) (hhere : last ≠ ['.']) :
    (componentsOf (xs ++ '/' :: last)).dropLast = componentsOf (xs ++ ['/']) := by
  obtain ⟨c, hc⟩ : ∃ c, Component.ofPiece last = some c := by
    unfold Component.ofPiece
    rw [if_neg hne, if_neg hhere]
    split <;> exact ⟨_, rfl⟩
  rw [componentsOf_slash, pieces_part hslash, List.filterMap_cons, hc]
  exact List.dropLast_concat

theorem dropTail_ne_nil {p : Path} {c : Component} (hlast : p.components.getLast? = some c)
    (hroot : c ≠ .root) : dropTail p.text.toList.reverse ≠ [] := by
  intro hnil
  have hne : p.text.toList.reverse ≠ [] := by
    intro h
    rw [components, List.reverse_eq_nil_iff.mp h] at hlast
    cases hlast
  have hall := (componentsOf_dropTail p.text.toList.reverse).2 hnil hne
  rw [List.reverse_reverse] at hall
  rw [components, hall] at hlast
  exact hroot (Option.some.inj hlast).symm

theorem last_of_parent {p q : Path} (h : p.parent? = some q) : p.components.getLast? ≠ some .root := by
  intro hroot
  unfold parent? at h
  rw [hroot] at h
  cases h

theorem componentsOf_before {last rest : List Char} (hslash : ∀ c ∈ last, c ≠ '/')
    (hhead : ∀ r, last ++ '/' :: rest ≠ '/' :: r ∧ last ++ '/' :: rest ≠ '.' :: '/' :: r) :
    componentsOf ('/' :: rest).reverse = (componentsOf (last ++ '/' :: rest).reverse).dropLast := by
  have hne : last.reverse ≠ [] := by
    intro h
    rw [List.reverse_eq_nil_iff.mp h] at hhead
    exact (hhead rest).1 rfl
  have hhere : last.reverse ≠ ['.'] := by
    intro h
    rw [List.reverse_eq_iff.mp h] at hhead
    exact (hhead rest).2 rfl
  have hslash' : ∀ c ∈ last.reverse, c ≠ '/' := fun c hc => hslash c (List.mem_reverse.mp hc)
  rw [List.reverse_append, List.reverse_cons, List.append_assoc, List.singleton_append,
    dropLast_componentsOf_slash _ hslash' hne hhere]

theorem components_parent {p q : Path} (h : p.parent? = some q) :
    q.components = p.components.dropLast := by
  unfold parent? at h
  split at h
  · cases h
  · cases h
  · rename_i c hroot hlast
    obtain rfl := Option.some.inj h
    have hwhole := (componentsOf_dropTail p.text.toList.reverse).1 (dropTail_ne_nil hlast hroot)
    have hhead := dropTail_head p.text.toList.reverse
    rw [List.reverse_reverse] at hwhole
    rw [components, components, ← hwhole]
    generalize dropTail p.text.toList.reverse = kept at hhead
    have hsplit : kept.takeWhile (· ≠ '/') ++ kept.dropWhile (· ≠ '/') = kept :=
      List.takeWhile_append_dropWhile
    have hslash : ∀ c ∈ kept.takeWhile (· ≠ '/'), c ≠ '/' := fun c hc => by
      simpa using List.all_eq_true.mp List.all_takeWhile c hc
    -- the last component is all of the path, or stands behind a slash
    cases hbefore : kept.dropWhile (· ≠ '/') with
    | nil =>
      rw [hbefore, List.append_nil] at hsplit
      rw [hsplit] at hslash
      rw [dropLast_componentsOf fun c hc => hslash c (List.mem_reverse.mp hc)]
      rfl
    | cons c rest =>
      obtain rfl : c = '/' := by
        have hc := List.head?_dropWhile_not (· ≠ '/') kept
        rw [hbefore] at hc
        simpa using hc
      rw [hbefore] at hsplit
      generalize kept.takeWhile (· ≠ '/') = last at hsplit hslash
      obtain rfl := hsplit
      have hcut := componentsOf_dropTail ('/' :: rest)
      rw [← componentsOf_before hslash hhead]
      by_cases hshort : dropTail ('/' :: rest) = []
      · rw [hcut.2 hshort (by simp), if_pos (by simp [hshort])]
        rfl
      · rw [← hcut.1 hshort, if_neg (by simp [hshort]), String.toList_ofList]

end OnDemand.Path
