import OnDemand.Toml.Quoted
import OnDemand.Toml.Writer

/-!
# Strings written and read

A string is written in one of four forms, whichever suits it, and each form is read back: escapes one
character at a time, and in a string over several lines the quotes, which end it only in threes
(`readString_writeString`).
-/

namespace OnDemand.Toml

variable {c d : Char} {cs rest : List Char}

/-- What follows a value in a document. -/
inductive Ended : List Char → Prop
  /-- The end of the line. -/
  | newline (cs : List Char) : Ended ('\n' :: cs)
  /-- Another element of an array. -/
  | comma (cs : List Char) : Ended (',' :: cs)
  /-- The end of an array. -/
  | bracket (cs : List Char) : Ended (']' :: cs)

theorem Ended.head_ne (h : Ended rest) (hn : c ≠ '\n') (hc : c ≠ ',') (hb : c ≠ ']') :
    rest.head? ≠ some c := by
  cases h with
  | newline => simpa using hn.symm
  | comma => simpa using hc.symm
  | bracket => simpa using hb.symm

theorem Ended.not_quote (h : Ended rest) : rest.head? ≠ some '"' :=
  h.head_ne (by decide) (by decide) (by decide)

theorem Ended.not_apostrophe (h : Ended rest) : rest.head? ≠ some '\'' :=
  h.head_ne (by decide) (by decide) (by decide)

theorem not_prefix_pair (h : cs.head? ≠ some c) : ¬ [c, c] <+: cs := by
  rintro ⟨r, rfl⟩
  exact h rfl

theorem not_prefix_pair_cons (h : cs.head? ≠ some c) : ¬ [c, c] <+: d :: cs := by
  rintro ⟨r, hr⟩
  rw [← (List.cons.inj hr).2] at h
  exact h rfl

/-! ## Escapes -/

def isEscaped (c : Char) : Bool :=
  c = '"' || c = '\\' || c = '\t' || !isPlain c

theorem basicChar_of_escaped (h : isEscaped c = true) : basicChar c = escapeOf c :=
  if_pos h

theorem basicChar_of_not_escaped (h : isEscaped c = false) : basicChar c = [c] :=
  if_neg (by simpa [isEscaped] using h)

theorem hexValue?_upperHexDigit : ∀ {n : Nat}, n < 16 → hexValue? (upperHexDigit n) = some n := by
  decide

theorem toNat_of_not_plain (h : isPlain c = false) : c.toNat < 128 := by
  simp only [isPlain, Bool.or_eq_false_iff, Bool.and_eq_false_iff, decide_eq_false_iff_not] at h
  omega

theorem readCodePoint_upperHexDigit (h : c.toNat < 128) : readCodePoint 4
    ('0' :: '0' :: upperHexDigit (c.toNat / 16) :: upperHexDigit (c.toNat % 16) :: rest) =
      some (c, rest) := by
  have hhigh := hexValue?_upperHexDigit (n := c.toNat / 16) (by omega)
  have hlow := hexValue?_upperHexDigit (n := c.toNat % 16) (by omega)
  have hzero : hexValue? '0' = some 0 := by decide
  have hnumber : c.toNat / 16 * 16 + c.toNat % 16 = c.toNat := by omega
  have hvalid : c.toNat.isValidChar := c.valid
  unfold readCodePoint
  simp [readHex, hzero, hhigh, hlow, hnumber, hvalid]

/-- An escape is a backslash and what is read as the character, which begins with no blank. -/
theorem readEscape_escapeOf (h : isEscaped c = true) : ∃ e, escapeOf c = '\\' :: e ∧
    (∀ rest, readEscape (e ++ rest) = some (c, rest)) ∧
    ∀ rest, afterNewline? (skipSpace (e ++ rest)) = none := by
  unfold escapeOf
  split
  · subst_vars
    exact ⟨_, rfl, fun rest => rfl, fun rest => rfl⟩
  split
  · subst_vars
    exact ⟨_, rfl, fun rest => rfl, fun rest => rfl⟩
  split
  · subst_vars
    exact ⟨_, rfl, fun rest => rfl, fun rest => rfl⟩
  split
  · subst_vars
    exact ⟨_, rfl, fun rest => rfl, fun rest => rfl⟩
  split
  · subst_vars
    exact ⟨_, rfl, fun rest => rfl, fun rest => rfl⟩
  split
  · subst_vars
    exact ⟨_, rfl, fun rest => rfl, fun rest => rfl⟩
  split
  · subst_vars
    exact ⟨_, rfl, fun rest => rfl, fun rest => rfl⟩
  · have hplain : isPlain c = false := by simp_all [isEscaped]
    exact ⟨_, rfl, fun rest => readCodePoint_upperHexDigit (toNat_of_not_plain hplain), fun rest => rfl⟩

theorem head?_basicChar (c : Char) (rest : List Char) :
    (basicChar c ++ rest).head? = some (if isEscaped c then '\\' else c) := by
  by_cases h : isEscaped c = true
  · obtain ⟨e, he, -⟩ := readEscape_escapeOf h
    rw [basicChar_of_escaped h, he, if_pos h]
    rfl
  · rw [basicChar_of_not_escaped (by simpa using h), if_neg h]
    rfl

theorem head?_basicChar_ne_quote (c : Char) (rest : List Char) :
    (basicChar c ++ rest).head? ≠ some '"' := by
  rw [head?_basicChar]
  split
  · decide
  · rename_i h
    rintro hc
    rw [Option.some.inj hc] at h
    exact h rfl

/-! ## On one line -/

theorem readBasic_plain (h : isEscaped c = false) (cs : List Char) :
    readBasic (c :: cs) = before [c] (readBasic cs) := by
  simp only [isEscaped, Bool.or_eq_false_iff, decide_eq_false_iff_not, Bool.not_eq_false'] at h
  obtain ⟨⟨⟨hquote, hback⟩, -⟩, hplain⟩ := h
  rw [readBasic]
  · rw [if_pos hplain]
  · exact hquote
  · exact hback

theorem readBasic_basicChar (c : Char) (rest : List Char) :
    readBasic (basicChar c ++ rest) = before [c] (readBasic rest) := by
  by_cases h : isEscaped c = true
  · obtain ⟨e, he, hread, -⟩ := readEscape_escapeOf h
    rw [basicChar_of_escaped h, he]
    exact readBasic_escape (hread rest)
  · have h : isEscaped c = false := by simpa using h
    rw [basicChar_of_not_escaped h]
    exact readBasic_plain h rest

theorem readBasic_written : ∀ cs rest : List Char,
    readBasic (cs.flatMap basicChar ++ '"' :: rest) = some (cs, rest)
  | [], rest => by simp [readBasic]
  | c :: cs, rest => by
    rw [List.flatMap_cons, List.append_assoc, readBasic_basicChar, readBasic_written cs rest]
    rfl

theorem readLiteral_written : ∀ {cs : List Char} (rest : List Char),
    (∀ c ∈ cs, isPlain c = true ∧ c ≠ '\'') → readLiteral (cs ++ '\'' :: rest) = some (cs, rest)
  | [], rest, _ => by simp [readLiteral]
  | c :: cs, rest, h => by
    obtain ⟨⟨hplain, hc⟩, hcs⟩ := List.forall_mem_cons.mp h
    rw [List.cons_append, readLiteral, if_pos hplain, readLiteral_written rest hcs]
    · rfl
    · exact hc

/-! ## Over several lines -/

theorem readBlock_close (h : rest.head? ≠ some '"') :
    readBlock ('"' :: '"' :: '"' :: rest) = some ([], rest) := by
  rw [readBlock]
  · rintro cs rfl
    exact h rfl
  · rintro cs rfl
    exact h rfl

theorem readBlock_close_one (h : rest.head? ≠ some '"') :
    readBlock ('"' :: '"' :: '"' :: '"' :: rest) = some (['"'], rest) := by
  rw [readBlock]
  rintro cs rfl
  exact h rfl

theorem readBlock_close_two (rest : List Char) :
    readBlock ('"' :: '"' :: '"' :: '"' :: '"' :: rest) = some (['"', '"'], rest) := by
  rw [readBlock]

theorem readBlock_quote (h : ¬ ['"', '"'] <+: cs) :
    readBlock ('"' :: cs) = before ['"'] (readBlock cs) := by
  have hpair : ∀ ds, cs ≠ '"' :: '"' :: ds := by
    rintro ds rfl
    exact h ⟨ds, rfl⟩
  rw [readBlock]
  · rfl
  · rintro ds - rfl
    exact hpair _ rfl
  · rintro ds - rfl
    exact hpair _ rfl
  · exact fun ds _ => hpair ds
  · decide
  · rintro ds ⟨⟩
  · decide

theorem readBlock_escape (hline : afterNewline? (skipSpace cs) = none)
    (h : readEscape cs = some (c, rest)) :
    readBlock ('\\' :: cs) = before [c] (readBlock rest) := by
  rw [readBlock, if_neg (by simp [hline])]
  split
  · rename_i h'
    rw [h] at h'
    cases h'
    rfl
  · rename_i h'
    rw [h] at h'
    cases h'

theorem readBlock_escapeOf (h : isEscaped c = true) (rest : List Char) :
    readBlock (escapeOf c ++ rest) = before [c] (readBlock rest) := by
  obtain ⟨e, he, hread, hline⟩ := readEscape_escapeOf h
  rw [he]
  exact readBlock_escape (hline rest) (hread rest)

theorem readBlock_basicChar (hn : c ≠ '\n') (rest : List Char) :
    readBlock (basicChar c ++ rest) = before [c] (readBlock rest) := by
  by_cases h : isEscaped c = true
  · rw [basicChar_of_escaped h]
    exact readBlock_escapeOf h rest
  · have h : isEscaped c = false := by simpa using h
    rw [basicChar_of_not_escaped h]
    simp only [isEscaped, Bool.or_eq_false_iff, decide_eq_false_iff_not, Bool.not_eq_false'] at h
    obtain ⟨⟨⟨hquote, hback⟩, -⟩, hplain⟩ := h
    have hreturn : c ≠ '\r' := by
      rintro rfl
      exact absurd hplain (by decide)
    rw [List.singleton_append, readBlock]
    · rw [if_pos hplain]
    all_goals simp_all

theorem head?_blockChars {n : Nat} (h : n = 2 ∨ c ≠ '"') (cs rest : List Char) :
    (blockChars n (c :: cs) ++ rest).head? ≠ some '"' := by
  rw [blockChars]
  split
  · rename_i hc
    have hn : n = 2 := h.resolve_right fun hne => hne hc
    obtain ⟨e, he, -⟩ := readEscape_escapeOf (c := '"') (by decide)
    rw [if_pos hn, hc, he]
    simp
  · split
    · simp_all
    · rw [List.append_assoc]
      exact head?_basicChar_ne_quote c _

/-- What is written between the quotes, after some of a run of quotes, is read back. -/
theorem readBlock_written (hrest : rest.head? ≠ some '"') : ∀ (cs : List Char) (n : Nat), n ≤ 2 →
    readBlock (blockChars n cs ++ '"' :: '"' :: '"' :: rest) = some (cs, rest)
  | [], _, _ => readBlock_close hrest
  | c :: cs, n, hn => by
    by_cases hc : c = '"'
    · subst hc
      by_cases h2 : n = 2
      · have hchars : blockChars n ('"' :: cs) = escapeOf '"' ++ blockChars 0 cs := by
          rw [blockChars, if_pos rfl, if_pos h2]
        rw [hchars, List.append_assoc, readBlock_escapeOf (by decide), readBlock_written hrest cs 0
          (by omega)]
        rfl
      · have hchars : blockChars n ('"' :: cs) = '"' :: blockChars (n + 1) cs := by
          rw [blockChars, if_pos rfl, if_neg h2]
        have ih := readBlock_written hrest cs (n + 1) (by omega)
        rw [hchars, List.cons_append]
        -- at the end of the string its last quotes stand before the closing ones
        cases cs with
        | nil => exact readBlock_close_one hrest
        | cons d ds =>
          by_cases hhead : n + 1 = 2 ∨ d ≠ '"'
          · rw [readBlock_quote (not_prefix_pair (head?_blockChars hhead ds _)), ih]
            rfl
          · obtain ⟨hn1, hd⟩ := not_or.mp hhead
            obtain rfl : d = '"' := Decidable.not_not.mp hd
            obtain rfl : n = 0 := by omega
            have htwo : blockChars 1 ('"' :: ds) = '"' :: blockChars 2 ds := by
              rw [blockChars, if_pos rfl, if_neg (by decide)]
            cases ds with
            | nil => exact readBlock_close_two rest
            | cons e es =>
              rw [Nat.zero_add, htwo] at ih ⊢
              rw [readBlock_quote, ih]
              · rfl
              · exact not_prefix_pair_cons (head?_blockChars (Or.inl rfl) es _)
    · by_cases hnl : c = '\n'
      · subst hnl
        have hchars : blockChars n ('\n' :: cs) = '\n' :: blockChars 0 cs := by
          rw [blockChars, if_neg hc, if_pos rfl]
        rw [hchars, List.cons_append, readBlock_newline, readBlock_written hrest cs 0 (by omega)]
        rfl
      · have hchars : blockChars n (c :: cs) = basicChar c ++ blockChars 0 cs := by
          rw [blockChars, if_neg hc, if_neg hnl]
        rw [hchars, List.append_assoc, readBlock_basicChar hnl, readBlock_written hrest cs 0 (by omega)]
        rfl

/-! ## Over several lines without escapes -/

theorem le_longestRun (c : Char) : ∀ (n : Nat) (cs : List Char), n ≤ longestRun c n cs
  | n, [] => Nat.le_refl n
  | n, d :: cs => by
    rw [longestRun]
    split
    · exact Nat.le_trans (Nat.le_succ n) (le_longestRun c (n + 1) cs)
    · exact Nat.le_max_left _ _

theorem longestRun_cons_same (c : Char) (n : Nat) (cs : List Char) :
    longestRun c n (c :: cs) = longestRun c (n + 1) cs := by
  rw [longestRun, if_pos rfl]

theorem longestRun_cons_of_ne (h : d ≠ c) (n : Nat) (cs : List Char) :
    longestRun c 0 cs ≤ longestRun c n (d :: cs) := by
  rw [longestRun, if_neg h]
  exact Nat.le_max_right _ _

theorem not_mem_of_longestRun : ∀ {cs : List Char}, longestRun c 0 cs = 0 → c ∉ cs
  | [], _ => List.not_mem_nil
  | d :: cs, h => by
    by_cases hd : d = c
    · subst hd
      have hle := le_longestRun d 1 cs
      rw [longestRun_cons_same, h] at *
      omega
    · have hle := longestRun_cons_of_ne hd 0 cs
      rw [List.mem_cons, not_or]
      exact ⟨Ne.symm hd, not_mem_of_longestRun (by omega)⟩

theorem readLiteralBlock_close (h : rest.head? ≠ some '\'') :
    readLiteralBlock ('\'' :: '\'' :: '\'' :: rest) = some ([], rest) := by
  rw [readLiteralBlock]
  · rintro cs rfl
    exact h rfl
  · rintro cs rfl
    exact h rfl

theorem readLiteralBlock_close_one (h : rest.head? ≠ some '\'') :
    readLiteralBlock ('\'' :: '\'' :: '\'' :: '\'' :: rest) = some (['\''], rest) := by
  rw [readLiteralBlock]
  rintro cs rfl
  exact h rfl

theorem readLiteralBlock_cons (hc : needsEscape c = false) (h : c = '\'' → ¬ ['\'', '\''] <+: cs) :
    readLiteralBlock (c :: cs) = before [c] (readLiteralBlock cs) := by
  have hpair : ∀ ds, c = '\'' → cs ≠ '\'' :: '\'' :: ds := by
    rintro ds hq rfl
    exact h hq ⟨ds, rfl⟩
  by_cases hn : c = '\n'
  · subst hn
    rw [readLiteralBlock]
  · have hplain : isPlain c = true := by simpa [needsEscape, hn] using hc
    rw [readLiteralBlock]
    · rw [if_pos hplain]
    · rintro ds hq rfl
      exact hpair _ hq rfl
    · rintro ds hq rfl
      exact hpair _ hq rfl
    · exact hpair
    · exact hn
    · rintro ds rfl
      exact absurd hplain (by decide)

theorem readLiteralBlock_written (hrest : rest.head? ≠ some '\'') : ∀ (cs : List Char) (n : Nat),
    longestRun '\'' n cs ≤ 2 → (∀ c ∈ cs, needsEscape c = false) →
    readLiteralBlock (cs ++ '\'' :: '\'' :: '\'' :: rest) = some (cs, rest)
  | [], _, _, _ => readLiteralBlock_close hrest
  | c :: cs, n, hrun, hplain => by
    obtain ⟨hc, hcs⟩ := List.forall_mem_cons.mp hplain
    rw [List.cons_append]
    by_cases hq : c = '\''
    · subst hq
      rw [longestRun_cons_same] at hrun
      have ih := readLiteralBlock_written hrest cs (n + 1) hrun hcs
      -- one or two quotes are read on, a third would close the string
      cases cs with
      | nil => exact readLiteralBlock_close_one hrest
      | cons d ds =>
        by_cases hd : d = '\''
        · subst hd
          rw [longestRun_cons_same] at hrun
          cases ds with
          | nil => exact readLiteralBlock_close_two rest
          | cons e es =>
            have he : e ≠ '\'' := by
              rintro rfl
              rw [longestRun_cons_same] at hrun
              have := le_longestRun '\'' (n + 1 + 1 + 1) es
              omega
            rw [readLiteralBlock_cons hc, ih]
            · rfl
            · exact fun _ => not_prefix_pair_cons (by simpa using he)
        · rw [readLiteralBlock_cons hc, ih]
          · rfl
          · exact fun _ => not_prefix_pair (by simpa using hd)
    · have hle := longestRun_cons_of_ne hq n cs
      rw [readLiteralBlock_cons hc fun h => absurd h hq,
        readLiteralBlock_written hrest cs 0 (by omega) hcs]
      rfl

/-! ## The four forms -/

theorem skipFirstNewline_of_head (h : ∀ c, cs.head? = some c → c ≠ '\n' ∧ c ≠ '\r') :
    skipFirstNewline cs = cs := by
  unfold skipFirstNewline afterNewline?
  split
  · exact absurd rfl (h '\n' rfl).1
  · exact absurd rfl (h '\r' rfl).2
  · rfl

theorem skipFirstNewline_openingLine {text : List Char}
    (h : '\n' ∉ cs → ∀ c, text.head? = some c → c ≠ '\n' ∧ c ≠ '\r') :
    skipFirstNewline (openingLine cs ++ text) = text := by
  unfold openingLine
  split
  · rfl
  · rename_i hn
    exact skipFirstNewline_of_head (h hn)

theorem head?_block (hn : '\n' ∉ cs) (hd : (blockChars 0 cs ++ '"' :: rest).head? = some d) :
    d ≠ '\n' ∧ d ≠ '\r' := by
  cases cs with
  | nil =>
    obtain rfl : '"' = d := by simpa [blockChars] using hd
    decide
  | cons c cs =>
    have hc : c ≠ '\n' := fun h => hn (by simp [h])
    by_cases hq : c = '"'
    · subst hq
      have hchars : blockChars 0 ('"' :: cs) = '"' :: blockChars 1 cs := by
        rw [blockChars, if_pos rfl, if_neg (by decide)]
      obtain rfl : '"' = d := by simpa [hchars] using hd
      decide
    · have hchars : blockChars 0 (c :: cs) = basicChar c ++ blockChars 0 cs := by
        rw [blockChars, if_neg hq, if_neg hc]
      rw [hchars, List.append_assoc, head?_basicChar] at hd
      obtain rfl := Option.some.inj hd
      split
      · decide
      · rename_i hescaped
        refine ⟨hc, ?_⟩
        rintro rfl
        exact hescaped rfl

theorem head?_literalBlock (hn : '\n' ∉ cs) (hplain : ∀ c ∈ cs, needsEscape c = false)
    (hd : (cs ++ '\'' :: rest).head? = some d) : d ≠ '\n' ∧ d ≠ '\r' := by
  cases cs with
  | nil =>
    obtain rfl : '\'' = d := by simpa using hd
    decide
  | cons c cs =>
    obtain rfl : c = d := by simpa using hd
    refine ⟨fun h => hn (by simp [h]), ?_⟩
    rintro rfl
    exact absurd (hplain '\r' (by simp)) (by decide)

theorem readString_basicForm (cs : List Char) (h : Ended rest) :
    readString (basicForm cs ++ rest) = some (String.ofList cs, rest) := by
  have hform : basicForm cs ++ rest = '"' :: (cs.flatMap basicChar ++ '"' :: rest) := by
    simp [basicForm]
  have hpair : ¬ ['"', '"'] <+: cs.flatMap basicChar ++ '"' :: rest := by
    cases cs with
    | nil => exact not_prefix_pair_cons h.not_quote
    | cons c cs =>
      rw [List.flatMap_cons, List.append_assoc]
      exact not_prefix_pair (head?_basicChar_ne_quote c _)
  rw [hform, readString]
  · rw [readLineString, readBasic_written]
    rfl
  · rintro ds hds
    exact hpair ⟨ds, (List.cons.inj hds).2.symm⟩
  · rintro ds ⟨⟩

theorem readString_literalForm (hplain : ∀ c ∈ cs, isPlain c = true ∧ c ≠ '\'') (h : Ended rest) :
    readString (literalForm cs ++ rest) = some (String.ofList cs, rest) := by
  have hform : literalForm cs ++ rest = '\'' :: (cs ++ '\'' :: rest) := by simp [literalForm]
  have hpair : ¬ ['\'', '\''] <+: cs ++ '\'' :: rest := by
    cases cs with
    | nil => exact not_prefix_pair_cons h.not_apostrophe
    | cons c cs => exact not_prefix_pair (by simpa using (hplain c (by simp)).2)
  rw [hform, readString]
  · rw [readLineString, readLiteral_written rest hplain]
    rfl
  · rintro ds ⟨⟩
  · rintro ds hds
    exact hpair ⟨ds, (List.cons.inj hds).2.symm⟩

theorem readString_blockForm (cs : List Char) (h : Ended rest) :
    readString (blockForm cs ++ rest) = some (String.ofList cs, rest) := by
  have hform : blockForm cs ++ rest = '"' :: '"' :: '"' ::
      (openingLine cs ++ (blockChars 0 cs ++ '"' :: '"' :: '"' :: rest)) := by
    simp [blockForm]
  rw [hform, readString, skipFirstNewline_openingLine fun hn _ => head?_block hn,
    readBlock_written h.not_quote cs 0 (by omega)]
  rfl

theorem readString_literalBlockForm (hplain : ∀ c ∈ cs, needsEscape c = false)
    (hrun : longestRun '\'' 0 cs ≤ 2) (h : Ended rest) :
    readString (literalBlockForm cs ++ rest) = some (String.ofList cs, rest) := by
  have hform : literalBlockForm cs ++ rest = '\'' :: '\'' :: '\'' ::
      (openingLine cs ++ (cs ++ '\'' :: '\'' :: '\'' :: rest)) := by
    simp [literalBlockForm]
  rw [hform, readString, skipFirstNewline_openingLine fun hn _ => head?_literalBlock hn hplain,
    readLiteralBlock_written h.not_apostrophe cs 0 hrun hplain]
  rfl

theorem writeString_append (s : String) (rest : List Char) :
    ∃ c cs, writeString s ++ rest = c :: cs ∧ (c = '"' ∨ c = '\'') := by
  unfold writeString
  simp only
  split
  · exact ⟨'"', _, rfl, Or.inl rfl⟩
  split
  · exact ⟨'\'', _, rfl, Or.inr rfl⟩
  split
  · exact ⟨'"', _, rfl, Or.inl rfl⟩
  split
  · exact ⟨'\'', _, rfl, Or.inr rfl⟩
  split
  · exact ⟨'"', _, rfl, Or.inl rfl⟩
  · exact ⟨'"', _, rfl, Or.inl rfl⟩

/-- A string that was written is read back, whatever characters it has. -/
theorem readString_writeString (s : String) (h : Ended rest) :
    readString (writeString s ++ rest) = some (s, rest) := by
  have hread : readString (writeString s ++ rest) = some (String.ofList s.toList, rest) := by
    unfold writeString
    simp only
    -- the forms in the order in which the writer tries them
    split
    · exact readString_basicForm _ h
    split
    · rename_i hcase
      simp only [Bool.and_eq_true, Bool.not_eq_true', decide_eq_true_eq, decide_eq_false_iff_not,
        List.any_eq_false] at hcase
      obtain ⟨⟨hplain, hlines⟩, hrun⟩ := hcase
      refine readString_literalForm (fun c hc => ⟨?_, ?_⟩) h
      · have hn : c ≠ '\n' := fun he => hlines (he ▸ hc)
        simpa [needsEscape, hn] using hplain c hc
      · rintro rfl
        exact not_mem_of_longestRun hrun hc
    split
    · exact readString_blockForm _ h
    split
    · rename_i hcase
      simp only [Bool.and_eq_true, Bool.not_eq_true', decide_eq_true_eq, List.any_eq_false] at hcase
      exact readString_literalBlockForm (fun c hc => by simpa using hcase.1 c hc) hcase.2 h
    split
    · exact readString_blockForm _ h
    · exact readString_basicForm _ h
  rwa [String.ofList_toList] at hread

end OnDemand.Toml
