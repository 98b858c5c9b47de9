import Mathlib.Data.List.TakeWhile
import OnDemand.Name

/-!
# Cutting and joining texts

A text that was put together from pieces comes apart into them again, and a list of lines that was
written out is read back.
-/

namespace OnDemand

namespace Text

variable {sep : Char → Bool} {c : Char}

theorem pieces_append_sep (hc : sep c = true) : ∀ xs ys : List Char,
    pieces sep (xs ++ c :: ys) = pieces sep xs ++ pieces sep ys
  | [], ys => by simp [pieces, hc]
  | x :: xs, ys => by
    have ih := pieces_append_sep hc xs ys
    rw [List.cons_append]
    simp only [pieces]
    by_cases hx : sep x = true
    · simp [hx, ih]
    · simp only [hx, ih]
      cases h : pieces sep xs with
      | nil => exact absurd h (pieces_ne_nil sep xs)
      | cons p ps => simp

theorem mem_of_mem_pieces (sep : Char → Bool) :
    ∀ cs : List Char, ∀ p ∈ pieces sep cs, ∀ c ∈ p, c ∈ cs
  | [], p, hp, c, hc => by
    simp only [pieces, List.mem_singleton] at hp
    subst hp
    cases hc
  | d :: cs, p, hp, c, hc => by
    have ih := mem_of_mem_pieces sep cs
    simp only [pieces] at hp
    split at hp
    · rcases List.mem_cons.mp hp with rfl | hp
      · cases hc
      · exact List.mem_cons_of_mem _ (ih p hp c hc)
    · split at hp
      · rename_i h
        exact absurd h (pieces_ne_nil sep cs)
      · rename_i q qs h
        rcases List.mem_cons.mp hp with rfl | hp
        · rcases List.mem_cons.mp hc with rfl | hc
          · exact List.mem_cons_self
          · exact List.mem_cons_of_mem _ (ih q (by rw [h]; simp) c hc)
        · exact List.mem_cons_of_mem _ (ih p (by rw [h]; simp [hp]) c hc)

theorem exists_mem_pieces (hc : sep c = false) : ∀ {cs : List Char}, c ∈ cs →
    ∃ p ∈ pieces sep cs, c ∈ p
  | d :: cs, h => by
    obtain ⟨q, qs, hq⟩ := List.exists_cons_of_ne_nil (pieces_ne_nil sep cs)
    by_cases hd : sep d = true
    · have hmem : c ∈ cs := by
        rcases List.mem_cons.mp h with rfl | h
        · rw [hd] at hc
          cases hc
        · exact h
      obtain ⟨p, hp, hcp⟩ := exists_mem_pieces hc hmem
      exact ⟨p, by simp [pieces, hd, hp], hcp⟩
    · have hpieces : pieces sep (d :: cs) = (d :: q) :: qs := by simp [pieces, hd, hq]
      rw [hpieces]
      rcases List.mem_cons.mp h with rfl | h
      · exact ⟨c :: q, by simp, by simp⟩
      · obtain ⟨p, hp, hcp⟩ := exists_mem_pieces hc h
        rw [hq] at hp
        rcases List.mem_cons.mp hp with rfl | hp
        · exact ⟨d :: p, by simp, by simp [hcp]⟩
        · exact ⟨p, by simp [hp], hcp⟩

theorem mem_intercalate {x c : Char} : ∀ {ps : List (List Char)},
    x ∈ [c].intercalate ps → x = c ∨ ∃ p ∈ ps, x ∈ p
  | [], h => by cases h
  | [p], h => Or.inr ⟨p, by simp, by simpa using h⟩
  | p :: q :: ps, h => by
    rw [List.intercalate_cons_cons, List.append_assoc] at h
    rcases List.mem_append.mp h with h | h
    · exact Or.inr ⟨p, by simp, h⟩
    · rcases List.mem_append.mp h with h | h
      · exact Or.inl (List.mem_singleton.mp h)
      · exact (mem_intercalate h).imp id fun ⟨r, hr, hx⟩ => ⟨r, List.mem_cons_of_mem _ hr, hx⟩

theorem prefix_intercalate (c : Char) (p : List Char) : ∀ ps : List (List Char),
    p <+: [c].intercalate (p :: ps)
  | [] => by simp
  | q :: ps => by
    rw [List.intercalate_cons_cons, List.append_assoc]
    exact List.prefix_append _ _

theorem pieces_intercalate (hc : sep c = true) : ∀ {ps : List (List Char)}, ps ≠ [] →
    (∀ p ∈ ps, ∀ x ∈ p, sep x = false) → pieces sep ([c].intercalate ps) = ps
  | [], hne, _ => absurd rfl hne
  | [p], _, h => by
    rw [List.intercalate_singleton]
    exact pieces_eq_singleton sep p (h p (by simp))
  | p :: q :: ps, _, h => by
    rw [List.intercalate_cons_cons, List.append_assoc, List.singleton_append,
      pieces_append_sep hc, pieces_eq_singleton sep p (h p (by simp)),
      pieces_intercalate hc (by simp) fun r hr => h r (by simp [hr])]
    rfl

theorem getLast?_pieces {sep : Char → Bool} {c : Char} (hc : sep c = true) (xs : List Char)
    {ys : List Char} (hys : ∀ y ∈ ys, sep y = false) :
    (pieces sep (xs ++ c :: ys)).getLast? = some ys := by
  rw [pieces_append_sep hc, pieces_eq_singleton sep ys hys]
  simp

theorem occurs_iff {needle : List Char} : ∀ {cs : List Char}, occurs needle cs = true ↔ needle <:+: cs
  | [] => by simp [occurs]
  | c :: cs => by
    rw [occurs, Bool.or_eq_true, List.isPrefixOf_iff_prefix, occurs_iff, List.infix_cons_iff]

/-! ## Trimming -/

theorem dropWhile_of_head {p : Char → Bool} : ∀ {l : List Char},
    (∀ x, l.head? = some x → p x = false) → l.dropWhile p = l
  | [], _ => rfl
  | x :: xs, h => by
    rw [List.dropWhile_cons_of_neg]
    simp [h x rfl]

theorem head_dropWhile {p : Char → Bool} : ∀ {l : List Char} {x : Char},
    (l.dropWhile p).head? = some x → p x = false
  | [], _, h => by cases h
  | y :: ys, x, h => by
    by_cases hy : p y = true
    · rw [List.dropWhile_cons_of_pos hy] at h
      exact head_dropWhile h
    · rw [List.dropWhile_cons_of_neg hy] at h
      obtain rfl := Option.some.inj h
      simpa using hy

theorem trim_eq_self {l : List Char} (hh : ∀ x, l.head? = some x → isBlank x = false)
    (hl : ∀ x, l.getLast? = some x → isBlank x = false) : trim l = l := by
  unfold trim
  rw [dropWhile_of_head hh, dropWhile_of_head, List.reverse_reverse]
  intro x hx
  rw [List.head?_reverse] at hx
  exact hl x hx

theorem getLast_trim {l : List Char} {x : Char} (h : (trim l).getLast? = some x) :
    isBlank x = false := by
  unfold trim at h
  rw [List.getLast?_reverse] at h
  exact head_dropWhile h

theorem trim_append_takeWhile (l : List Char) :
    trim l ++ ((l.dropWhile isBlank).reverse.takeWhile isBlank).reverse = l.dropWhile isBlank := by
  unfold trim
  rw [← List.reverse_append, List.takeWhile_append_dropWhile, List.reverse_reverse]

theorem head_trim {l : List Char} {x : Char} (h : (trim l).head? = some x) :
    isBlank x = false := by
  -- what is left after the cut at the end still begins where the text began after the first cut
  refine head_dropWhile (p := isBlank) (l := l) ?_
  rw [← trim_append_takeWhile, List.head?_append, h]
  rfl

theorem trim_trim (l : List Char) : trim (trim l) = trim l :=
  trim_eq_self (fun _ => head_trim) (fun _ => getLast_trim)

theorem exists_trim (l : List Char) : ∃ front back, l = front ++ trim l ++ back ∧
    (∀ c ∈ front, isBlank c = true) ∧ ∀ c ∈ back, isBlank c = true := by
  have hblank : ∀ l : List Char, ∀ c ∈ l.takeWhile isBlank, isBlank c = true :=
    fun l c hc => List.mem_takeWhile_imp hc
  refine ⟨l.takeWhile isBlank, ((l.dropWhile isBlank).reverse.takeWhile isBlank).reverse, ?_,
    hblank l, fun c hc => hblank _ c (List.mem_reverse.mp hc)⟩
  rw [List.append_assoc, trim_append_takeWhile, List.takeWhile_append_dropWhile]

theorem mem_of_mem_trim {l : List Char} {x : Char} (h : x ∈ trim l) : x ∈ l := by
  obtain ⟨front, back, hl, -, -⟩ := exists_trim l
  rw [hl]
  exact List.mem_append_left _ (List.mem_append_right _ h)

theorem trim_eq_nil {l : List Char} : trim l = [] ↔ ∀ c ∈ l, isBlank c = true := by
  constructor
  · intro h c hc
    obtain ⟨front, back, hl, hfront, hback⟩ := exists_trim l
    rw [hl, h, List.append_nil] at hc
    exact (List.mem_append.mp hc).elim (hfront c) (hback c)
  · intro h
    unfold trim
    rw [List.dropWhile_eq_nil_iff.mpr h]
    rfl

theorem trim_append {front l back : List Char} (hfront : ∀ c ∈ front, isBlank c = true)
    (hback : ∀ c ∈ back, isBlank c = true) (hne : l ≠ [])
    (hh : ∀ x, l.head? = some x → isBlank x = false)
    (hl : ∀ x, l.getLast? = some x → isBlank x = false) : trim (front ++ l ++ back) = l := by
  have hfirst : (front ++ l ++ back).dropWhile isBlank = l ++ back := by
    rw [List.append_assoc, List.dropWhile_append_of_pos hfront]
    refine dropWhile_of_head fun x hx => hh x ?_
    obtain ⟨y, ys, rfl⟩ := List.exists_cons_of_ne_nil hne
    exact hx
  have hlast : (back.reverse ++ l.reverse).dropWhile isBlank = l.reverse := by
    rw [List.dropWhile_append_of_pos fun c hc => hback c (List.mem_reverse.mp hc)]
    refine dropWhile_of_head fun x hx => hl x ?_
    rwa [List.head?_reverse] at hx
  unfold trim
  rw [hfirst, List.reverse_append, hlast, List.reverse_reverse]

/-! ## Lines -/

/-- What a line holds that is read back as it was written: no newline, and no blank at either end. -/
structure IsLine (l : List Char) : Prop where
  closed : '\n' ∉ l
  trimmed : trim l = l

theorem IsLine.dropReturn {l : List Char} (h : IsLine l) : dropReturn l = l := by
  unfold Text.dropReturn
  split
  · rename_i hr
    rw [← h.trimmed] at hr
    exact absurd (getLast_trim hr) (by decide)
  · rfl

theorem isLine_trim {l : List Char} (h : '\n' ∉ l) : IsLine (trim l) :=
  ⟨fun hn => h (mem_of_mem_trim hn), trim_trim l⟩

theorem not_newline_of_mem_lines {text l : List Char} (h : l ∈ lines text) : '\n' ∉ l := by
  have hpieces : ∀ p ∈ pieces (· == '\n') text, '\n' ∉ p := by
    intro p hp hn
    have := not_sep_of_mem_pieces (· == '\n') text p hp '\n' hn
    simp at this
  have hrev : ∀ p ∈ (pieces (· == '\n') text).reverse, '\n' ∉ p :=
    fun p hp => hpieces p (List.mem_reverse.mp hp)
  unfold lines at h
  split at h
  · cases h
  · rename_i last closed hsplit
    rw [hsplit] at hrev
    rcases List.mem_append.mp h with h | h
    · obtain ⟨p, hp, rfl⟩ := List.mem_map.mp h
      have hn := hrev p (List.mem_cons_of_mem _ (List.mem_reverse.mp hp))
      unfold Text.dropReturn
      split
      · exact fun hd => hn ((List.dropLast_sublist _).mem hd)
      · exact hn
    · split at h
      · cases h
      · obtain rfl := List.mem_singleton.mp h
        exact hrev _ (by simp)

theorem lines_closed {ls : List (List Char)} (hne : ls ≠ []) (h : ∀ l ∈ ls, IsLine l) :
    lines (['\n'].intercalate ls ++ ['\n']) = ls := by
  have hpieces : pieces (· == '\n') (['\n'].intercalate ls ++ ['\n']) = ls ++ [[]] := by
    rw [pieces_append_sep (by rfl), pieces_intercalate (by rfl) hne]
    · rfl
    · intro p hp x hx
      have hxn : x ≠ '\n' := by
        rintro rfl
        exact (h p hp).closed hx
      simpa using hxn
  have hmap : ls.map Text.dropReturn = ls := by
    rw [List.map_congr_left fun l hl => (h l hl).dropReturn, List.map_id']
  unfold lines
  rw [hpieces, List.reverse_append, List.reverse_singleton, List.singleton_append]
  simp [hmap]

theorem pieces_newline {l : List Char} (hl : '\n' ∉ l) : pieces (· == '\n') l = [l] := by
  refine pieces_eq_singleton _ l fun x hx => ?_
  have hne : x ≠ '\n' := fun h => hl (h ▸ hx)
  simpa using hne

theorem lines_append_newline {l : List Char} (hl : '\n' ∉ l) (rest : List Char) :
    lines (l ++ '\n' :: rest) = dropReturn l :: lines rest := by
  obtain ⟨last, closed, hrest⟩ : ∃ last closed, (pieces (· == '\n') rest).reverse = last :: closed :=
    List.exists_cons_of_ne_nil (by simpa using pieces_ne_nil _ rest)
  have hpieces : (pieces (· == '\n') (l ++ '\n' :: rest)).reverse = last :: (closed ++ [l]) := by
    rw [pieces_append_sep (by rfl), pieces_newline hl, List.reverse_append, hrest]
    rfl
  unfold lines
  rw [hpieces, hrest]
  simp

theorem lines_of_not_mem {l : List Char} (hl : '\n' ∉ l) (hne : l ≠ []) : lines l = [l] := by
  have hempty : l.isEmpty = false := by simpa using hne
  unfold lines
  rw [pieces_newline hl]
  simp [hempty]

theorem infix_dropReturn {key l : List Char} (h : key <:+: l) (hkey : '\r' ∉ key) :
    key <:+: dropReturn l := by
  unfold dropReturn
  split
  · rename_i hlast
    obtain ⟨init, rfl⟩ := List.getLast?_eq_some_iff.mp hlast
    rw [List.dropLast_concat]
    rcases List.infix_concat_iff.mp h with h | h
    · rcases List.suffix_concat_iff.mp h with rfl | ⟨t, rfl, -⟩
      · exact List.nil_infix
      · exact absurd (by simp) hkey
    · exact h
  · exact h

theorem exists_line {part : List Char} (hne : part ≠ []) (hpart : '\n' ∉ part)
    (pre rest : List Char) : ∃ line, (lines (pre ++ part ++ rest))[pre.count '\n']? = some line ∧
      ∀ key, key <:+: part → '\r' ∉ key → key <:+: line := by
  by_cases hpre : '\n' ∈ pre
  · obtain ⟨first, more, rfl, hfirst⟩ := List.eq_append_cons_of_mem hpre
    obtain ⟨line, hline, hkey⟩ := exists_line hne hpart more rest
    refine ⟨line, ?_, hkey⟩
    have hcount : (first ++ '\n' :: more).count '\n' = more.count '\n' + 1 := by
      simp [List.count_eq_zero.mpr hfirst]
    rw [hcount, List.append_assoc, List.append_assoc, List.cons_append,
      lines_append_newline hfirst, List.getElem?_cons_succ, ← List.append_assoc, hline]
  · rw [List.count_eq_zero.mpr hpre]
    by_cases hrest : '\n' ∈ rest
    · obtain ⟨first, more, rfl, hfirst⟩ := List.eq_append_cons_of_mem hrest
      have hline : '\n' ∉ pre ++ part ++ first := by simp [hpre, hpart, hfirst]
      refine ⟨dropReturn (pre ++ part ++ first), ?_, fun key hkey hret => ?_⟩
      · rw [← List.append_assoc, lines_append_newline hline]
        rfl
      · exact infix_dropReturn (hkey.trans (List.infix_append pre part first)) hret
    · have hline : '\n' ∉ pre ++ part ++ rest := by simp [hpre, hpart, hrest]
      refine ⟨pre ++ part ++ rest, ?_, fun key hkey _ => hkey.trans (List.infix_append pre part rest)⟩
      rw [lines_of_not_mem hline (by simp [hne])]
      rfl
termination_by pre.length

end Text

theorem isBlankText_iff {s : String} : isBlankText s = true ↔ trimmed s = "" := by
  rw [isBlankText, trimmed, String.ofList_eq_empty_iff, Text.trim_eq_nil, List.all_eq_true]

/-! ## Names -/

namespace Name

theorem not_separator_of_mem_segmentsOf {text s : String} (h : s ∈ segmentsOf text) {x : Char}
    (hx : x ∈ s.toList) : isSeparator x = false := by
  obtain ⟨p, hp, rfl⟩ := List.mem_map.mp h
  rw [String.toList_ofList] at hx
  exact Text.not_sep_of_mem_pieces isSeparator _ p hp x hx

theorem segmentsOf_intercalate {sep : Char} (hsep : isSeparator sep = true) {parts : List String}
    (hne : parts ≠ []) (h : ∀ s ∈ parts, ∀ x ∈ s.toList, isSeparator x = false) :
    segmentsOf ((String.ofList [sep]).intercalate parts) = parts := by
  unfold segmentsOf piecesOf
  rw [String.toList_intercalate, String.toList_ofList, Text.pieces_intercalate hsep (by simpa)]
  · simp
  · intro p hp
    obtain ⟨s, hs, rfl⟩ := List.mem_map.mp hp
    exact h s hs

theorem ne_empty_of_wellFormed {text : String} (h : WellFormed text) : text ≠ "" := by
  rintro rfl
  exact h.2 "" (by decide) rfl

theorem text_ne_empty (n : Name) : n.text ≠ "" :=
  ne_empty_of_wellFormed n.wellFormed

theorem not_separator_of_getLast? {n : Name} {c : Char} (h : n.text.toList.getLast? = some c) :
    isSeparator c = false := by
  obtain ⟨init, hinit⟩ := List.getLast?_eq_some_iff.mp h
  cases hc : isSeparator c with
  | false => rfl
  | true =>
    have hpieces : Text.pieces isSeparator n.text.toList = Text.pieces isSeparator init ++ [[]] := by
      rw [hinit, Text.pieces_append_sep hc]
      rfl
    have hempty : "" ∈ n.segments := by
      rw [segments, segmentsOf, piecesOf, hpieces]
      simp
    exact absurd rfl (ne_empty_of_mem_segments hempty)

theorem parse_of_wellFormed {text : String} (h : WellFormed text) : parse text = .ok ⟨text, h⟩ := by
  have hfind : text.toList.find? isForbidden = none := by
    rw [List.find?_eq_none]
    intro x hx
    simp [h.1 x hx]
  unfold parse
  rw [if_neg (ne_empty_of_wellFormed h), hfind]
  simp only [dif_pos h]

theorem parse_text (n : Name) : parse n.text = .ok n :=
  parse_of_wellFormed n.wellFormed

theorem parse?_text (n : Name) : parse? n.text = some n := by
  rw [parse?, parse_text]
  rfl

theorem text_of_parse {text : String} {n : Name} (h : parse text = .ok n) : n.text = text := by
  unfold parse at h
  split at h
  · cases h
  · split at h
    · cases h
    · split at h
      · obtain rfl := Except.ok.inj h
        rfl
      · cases h

theorem text_of_parse? {text : String} {n : Name} (h : parse? text = some n) : n.text = text := by
  unfold parse? at h
  cases hp : parse text with
  | error e => rw [hp] at h; cases h
  | ok m =>
    rw [hp] at h
    obtain rfl := Option.some.inj h
    exact text_of_parse hp

/-- The segments of a name with a character between them that names may hold are a name. -/
theorem wellFormed_intercalate {c : Char} (hc : isForbidden c = false) (n : Name) :
    WellFormed ((String.ofList [c]).intercalate n.segments) := by
  have hmem : ∀ x ∈ ((String.ofList [c]).intercalate n.segments).toList,
      x = c ∨ ∃ s ∈ n.segments, x ∈ s.toList := by
    intro x hx
    rw [String.toList_intercalate, String.toList_ofList] at hx
    refine (Text.mem_intercalate hx).imp id ?_
    rintro ⟨p, hp, hx⟩
    obtain ⟨s, hs, rfl⟩ := List.mem_map.mp hp
    exact ⟨s, hs, hx⟩
  refine ⟨fun x hx => ?_, ?_⟩
  · rcases hmem x hx with rfl | ⟨s, hs, hx⟩
    · exact hc
    · obtain ⟨p, hp, rfl⟩ := List.mem_map.mp hs
      rw [String.toList_ofList] at hx
      exact n.wellFormed.1 x (Text.mem_of_mem_pieces _ _ p hp x hx)
  · by_cases hsep : isSeparator c = true
    · rw [segmentsOf_intercalate hsep n.segments_ne_nil
        fun s hs x hx => not_separator_of_mem_segmentsOf hs hx]
      exact n.wellFormed.2
    · -- no character separates, so the text is one segment
      have hnone : ∀ x ∈ ((String.ofList [c]).intercalate n.segments).toList,
          isSeparator x = false := by
        intro x hx
        rcases hmem x hx with rfl | ⟨s, hs, hx⟩
        · exact eq_false_of_ne_true hsep
        · exact not_separator_of_mem_segmentsOf hs hx
      rw [segmentsOf, piecesOf, Text.pieces_eq_singleton _ _ hnone]
      simp only [List.map_cons, List.map_nil, String.ofList_toList, List.mem_singleton]
      rintro s rfl hempty
      obtain ⟨s, segments, hs⟩ := List.exists_cons_of_ne_nil n.segments_ne_nil
      have hpre := Text.prefix_intercalate c s.toList (segments.map String.toList)
      rw [← List.map_cons, ← hs, ← String.toList_ofList (l := [c]), ← String.toList_intercalate,
        hempty] at hpre
      have hnil := String.toList_eq_nil_iff.mp (List.prefix_nil.mp hpre)
      exact ne_empty_of_mem_segments (n := n) (by rw [hs]; simp) hnil

theorem isLine_text (n : Name) : Text.IsLine n.text.toList := by
  have hblank : ∀ x ∈ n.text.toList, Text.isBlank x = false := by
    intro x hx
    have := n.wellFormed.1 x hx
    unfold isForbidden at this
    simp only [Bool.or_eq_false_iff] at this
    exact this.1
  constructor
  · intro hn
    have := hblank '\n' hn
    exact absurd this (by decide)
  · refine Text.trim_eq_self ?_ ?_
    · intro x hx
      exact hblank x (List.mem_of_mem_head? hx)
    · intro x hx
      exact hblank x (List.mem_of_getLast? hx)

end Name

end OnDemand
