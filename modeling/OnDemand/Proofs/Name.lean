import OnDemand.Proofs.Text

/-!
# The grammar of names

A name is a segment, or a segment, a separator and a name. A text is read as a name exactly if it is
spelled so, and then the name has that text and its only spelling is with the segments of the name and
the separators of the text in order (`parse_grammar`). A text that is refused is refused for the first of
three faults: that it is empty, a forbidden character, a segment that is missing.
-/

namespace OnDemand.Name

variable {text : String} {ss : List String} {cs : List Char} {c sep : Char} {n : Name} {e : NameError}

/-- What a segment is: a text of characters that names may hold, without separators. -/
structure IsSegment (s : String) : Prop where
  nonempty : s ≠ ""
  noSeparator : ∀ c ∈ s.toList, isSeparator c = false
  allowed : ∀ c ∈ s.toList, isForbidden c = false

/-- A text is spelled with some segments and single separators between them. -/
inductive Spelled : String → List String → List Char → Prop where
  | last {s : String} : IsSegment s → Spelled s [s] []
  | more {s text : String} {ss : List String} {c : Char} {cs : List Char} :
    IsSegment s → isSeparator c = true → Spelled text ss cs →
    Spelled (s ++ String.ofList [c] ++ text) (s :: ss) (c :: cs)

/-- Why a text is refused. -/
inductive Refused (text : String) : NameError → Prop where
  | empty : text = "" → Refused text .empty
  | invalidCharacter {before after : List Char} {ch : Char} : text.toList = before ++ ch :: after →
    isForbidden ch = true → (∀ c ∈ before, isForbidden c = false) →
    Refused text (.invalidCharacter text ch)
  | invalidSegment : text ≠ "" → (∀ c ∈ text.toList, isForbidden c = false) →
    (∀ ss cs, ¬ Spelled text ss cs) → Refused text (.invalidSegment text)

/-! ## Separators -/

theorem isSeparator_iff : isSeparator c = true ↔ c = '/' ∨ c = '.' := by
  simp [isSeparator]

theorem not_forbidden_of_separator (h : isSeparator c = true) : isForbidden c = false := by
  rcases isSeparator_iff.mp h with rfl | rfl <;> decide

theorem IsSegment.ne_dots {s : String} (h : IsSegment s) : s ≠ "." ∧ s ≠ ".." := by
  constructor
  · rintro rfl
    exact absurd (h.noSeparator '.' (by decide)) (by decide)
  · rintro rfl
    exact absurd (h.noSeparator '.' (by decide)) (by decide)

/-! ## From a spelling to a name -/

theorem segmentsOf_append {s : String} (hs : IsSegment s) (hc : isSeparator c = true) (text : String) :
    segmentsOf (s ++ String.ofList [c] ++ text) = s :: segmentsOf text := by
  have htext : (s ++ String.ofList [c] ++ text).toList = s.toList ++ c :: text.toList := by simp
  rw [segmentsOf, piecesOf, htext, Text.pieces_append_sep hc,
    Text.pieces_eq_singleton _ _ hs.noSeparator]
  simp [segmentsOf, piecesOf]

theorem Spelled.segmentsOf_eq (h : Spelled text ss cs) : segmentsOf text = ss := by
  induction h with
  | last hs => simp [segmentsOf, piecesOf, Text.pieces_eq_singleton _ _ hs.noSeparator]
  | more hs hc _ ih => rw [segmentsOf_append hs hc, ih]

theorem Spelled.separators_eq (h : Spelled text ss cs) : text.toList.filter isSeparator = cs := by
  have hnone : ∀ {s : String}, IsSegment s → s.toList.filter isSeparator = [] := fun hs => by
    simpa using hs.noSeparator
  induction h with
  | last hs => exact hnone hs
  | more hs hc _ ih => simp [hnone hs, hc, ih]

theorem Spelled.segments_ne_nil (h : Spelled text ss cs) : ss ≠ [] := by
  cases h <;> simp

theorem Spelled.isSegment (h : Spelled text ss cs) : ∀ s ∈ ss, IsSegment s := by
  induction h with
  | last hs => simpa using hs
  | more hs _ _ ih => exact List.forall_mem_cons.mpr ⟨hs, ih⟩

theorem Spelled.allowed (h : Spelled text ss cs) : ∀ x ∈ text.toList, isForbidden x = false := by
  induction h with
  | last hs => exact hs.allowed
  | more hs hc _ ih =>
    intro x hx
    simp only [String.toList_append, String.toList_ofList, List.mem_append, List.mem_singleton] at hx
    rcases hx with (hx | rfl) | hx
    · exact hs.allowed x hx
    · exact not_forbidden_of_separator hc
    · exact ih x hx

theorem Spelled.wellFormed (h : Spelled text ss cs) : WellFormed text :=
  ⟨h.allowed, fun s hs => (h.isSegment s (h.segmentsOf_eq ▸ hs)).nonempty⟩

theorem Spelled.intercalate_eq (h : Spelled text ss cs) (hsep : ∀ c ∈ cs, c = sep) :
    (String.ofList [sep]).intercalate ss = text := by
  induction h with
  | last hs => simp
  | more hs hc h ih =>
    obtain ⟨rfl, hsep⟩ := List.forall_mem_cons.mp hsep
    obtain ⟨s', ss', hss⟩ := List.exists_cons_of_ne_nil h.segments_ne_nil
    rw [← ih hsep, hss, String.intercalate_cons_cons]

/-! ## From a name to its spelling -/

/-- A text of allowed characters is spelled with what stands between its separators, if none of that is
empty. -/
theorem spelled_pieces (cs : List Char) (hallowed : ∀ c ∈ cs, isForbidden c = false)
    (hne : ∀ p ∈ Text.pieces isSeparator cs, p ≠ []) :
    Spelled (String.ofList cs) ((Text.pieces isSeparator cs).map String.ofList)
      (cs.filter isSeparator) := by
  have hsegment : ∀ first : List Char, first ≠ [] → (∀ c ∈ first, isSeparator c = false) →
      (∀ c ∈ first, isForbidden c = false) → IsSegment (String.ofList first) :=
    fun first hne hsep hall => ⟨by simpa using hne, by simpa using hsep, by simpa using hall⟩
  cases hfind : cs.find? isSeparator with
  | none =>
    have hsep : ∀ c ∈ cs, isSeparator c = false := by simpa using hfind
    have hpieces := Text.pieces_eq_singleton isSeparator cs hsep
    have hnone : cs.filter isSeparator = [] := by simpa using hsep
    rw [hpieces] at hne ⊢
    rw [hnone]
    exact .last (hsegment cs (hne cs (by simp)) hsep hallowed)
  | some c =>
    -- the text up to the first separator is a segment, and what follows it is shorter
    obtain ⟨hc, first, rest, rfl, hfirst⟩ := List.find?_eq_some_iff_append.mp hfind
    have hsep : ∀ c ∈ first, isSeparator c = false := by simpa using hfirst
    have hnone : first.filter isSeparator = [] := by simpa using hsep
    rw [Text.pieces_append_sep hc, Text.pieces_eq_singleton isSeparator first hsep] at hne ⊢
    have ih := spelled_pieces rest (fun c hc => hallowed c (by simp [hc]))
      fun p hp => hne p (by simp [hp])
    have hmore := Spelled.more (hsegment first (hne first (by simp)) hsep
      fun c hc => hallowed c (by simp [hc])) hc ih
    have htext : String.ofList (first ++ c :: rest) =
        String.ofList first ++ String.ofList [c] ++ String.ofList rest := by
      rw [← String.toList_inj]
      simp
    have hfilter : (first ++ c :: rest).filter isSeparator = c :: rest.filter isSeparator := by
      simp [hnone, hc]
    rw [htext, hfilter]
    exact hmore
termination_by cs.length

theorem spelled_of_wellFormed (h : WellFormed text) :
    Spelled text (segmentsOf text) (text.toList.filter isSeparator) := by
  have hne : ∀ p ∈ Text.pieces isSeparator text.toList, p ≠ [] := by
    rintro p hp rfl
    exact h.2 "" (List.mem_map.mpr ⟨[], hp, rfl⟩) rfl
  have hspelled := spelled_pieces text.toList h.1 hne
  rwa [String.ofList_toList] at hspelled

theorem wellFormed_iff : WellFormed text ↔ ∃ ss cs, Spelled text ss cs :=
  ⟨fun h => ⟨_, _, spelled_of_wellFormed h⟩, fun ⟨_, _, h⟩ => h.wellFormed⟩

/-! ## What is read -/

theorem parse_ok_iff : (∃ n, parse text = .ok n) ↔ WellFormed text := by
  constructor
  · rintro ⟨n, hn⟩
    rw [← text_of_parse hn]
    exact n.wellFormed
  · exact fun h => ⟨_, parse_of_wellFormed h⟩

theorem refused_of_parse (h : parse text = .error e) : Refused text e := by
  unfold parse at h
  split at h
  · rename_i hempty
    obtain rfl := Except.error.inj h
    exact .empty hempty
  · rename_i hne
    split at h
    · rename_i ch hfind
      obtain rfl := Except.error.inj h
      obtain ⟨hch, before, after, htext, hbefore⟩ := List.find?_eq_some_iff_append.mp hfind
      exact .invalidCharacter htext hch (by simpa using hbefore)
    · rename_i hfind
      split at h
      · cases h
      · rename_i hnot
        obtain rfl := Except.error.inj h
        exact .invalidSegment hne (by simpa using hfind) fun ss cs hs => hnot hs.wellFormed

theorem parse_of_refused (h : Refused text e) : parse text = .error e := by
  unfold parse
  cases h with
  | empty hempty => rw [if_pos hempty]
  | invalidCharacter htext hch hbefore =>
    have hne : text ≠ "" := by
      rintro rfl
      simp at htext
    have hfind := List.find?_eq_some_iff_append.mpr ⟨hch, _, _, htext, by simpa using hbefore⟩
    rw [if_neg hne, hfind]
  | invalidSegment hne hallowed hnot =>
    have hfind : text.toList.find? isForbidden = none := by simpa using hallowed
    have hwf : ¬ WellFormed text := fun h => hnot _ _ (spelled_of_wellFormed h)
    rw [if_neg hne, hfind]
    simp only [dif_neg hwf]

/-- A text is read exactly if it is spelled as the grammar says. The name has that text, whose only spelling
is with the segments of the name and the separators in the text; no segment is empty or leads upwards. Any
other text is refused for the first of its faults. -/
theorem parse_grammar (text : String) :
    ((∃ n, parse text = .ok n) ↔ ∃ ss cs, Spelled text ss cs) ∧
    (∀ n, parse text = .ok n → n.text = text ∧
      (∀ ss cs, Spelled text ss cs ↔ ss = n.segments ∧ cs = text.toList.filter isSeparator) ∧
      ∀ s ∈ n.segments, s ≠ "" ∧ s ≠ "." ∧ s ≠ ".." ∧ ∀ c ∈ s.toList, c ≠ '/' ∧ c ≠ '.') ∧
    ∀ e, parse text = .error e ↔ Refused text e := by
  refine ⟨parse_ok_iff.trans wellFormed_iff, fun n hn => ?_, fun e => ⟨refused_of_parse, parse_of_refused⟩⟩
  obtain rfl := text_of_parse hn
  have hspelled := spelled_of_wellFormed n.wellFormed
  refine ⟨rfl, fun ss cs => ⟨fun h => ⟨h.segmentsOf_eq.symm, h.separators_eq.symm⟩, ?_⟩, fun s hs => ?_⟩
  · rintro ⟨rfl, rfl⟩
    exact hspelled
  · have hsegment := hspelled.isSegment s hs
    refine ⟨hsegment.nonempty, hsegment.ne_dots.1, hsegment.ne_dots.2, fun c hc => ?_⟩
    simpa [isSeparator] using hsegment.noSeparator c hc

theorem parse_grammar_mixed :
    (∃ n, parse "remote/algo.Sort" = .ok n ∧ Spelled "remote/algo.Sort" n.segments ['/', '.']) ∧
    Refused "a//b c" (.invalidCharacter "a//b c" ' ') ∧ Refused "a/../b" (.invalidSegment "a/../b") := by
  refine ⟨?_, ((parse_grammar _).2.2 _).mp (by decide +kernel),
    ((parse_grammar _).2.2 _).mp (by decide +kernel)⟩
  have hok : parse "remote/algo.Sort" = .ok ⟨"remote/algo.Sort", by decide +kernel⟩ := by decide +kernel
  have hseparators : "remote/algo.Sort".toList.filter isSeparator = ['/', '.'] := by decide +kernel
  obtain ⟨-, hspelled, -⟩ := (parse_grammar _).2.1 _ hok
  exact ⟨_, hok, (hspelled _ _).mpr ⟨rfl, hseparators.symm⟩⟩

end OnDemand.Name
