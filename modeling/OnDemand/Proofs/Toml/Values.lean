import OnDemand.Proofs.Toml.Strings
import OnDemand.Toml.Reader

/-!
# Values written and read

An integer is its digits, and a reader that comes upon digits tries a date, a time and a floating-point
number first; what follows the digits rules them out. An array of strings has one item to a line or all
on one. So each value that a setting is written as is read back (`readValue_written`).
-/

namespace OnDemand.Toml

variable {c : Char} {cs rest : List Char} {ds : List Nat}

/-! ## Digits -/

def digitChar (d : Nat) : Char :=
  Char.ofNat (d + 48)

def decimalDigits (n : Nat) : List Nat :=
  if n < 10 then [n] else decimalDigits (n / 10) ++ [n % 10]

theorem decimalDigits_of_lt {n : Nat} (h : n < 10) : decimalDigits n = [n] := by
  rw [decimalDigits, if_pos h]

theorem decimalDigits_of_not_lt {n : Nat} (h : ¬ n < 10) :
    decimalDigits n = decimalDigits (n / 10) ++ [n % 10] := by
  rw [decimalDigits, if_neg h]

theorem digits_eq (n : Nat) : Json.digits n = (decimalDigits n).map digitChar := by
  rw [Json.digits]
  split
  · rename_i h
    rw [decimalDigits_of_lt h]
    rfl
  · rename_i h
    rw [decimalDigits_of_not_lt h, digits_eq (n / 10), List.map_append]
    rfl

theorem lt_of_mem_decimalDigits (n : Nat) : ∀ d ∈ decimalDigits n, d < 10 := by
  by_cases h : n < 10
  · rw [decimalDigits_of_lt h]
    simpa using h
  · rw [decimalDigits_of_not_lt h]
    intro d hd
    rcases List.mem_append.mp hd with hd | hd
    · exact lt_of_mem_decimalDigits (n / 10) d hd
    · rw [List.mem_singleton] at hd
      omega

theorem ofDigits_decimalDigits (n : Nat) : ofDigits 10 (decimalDigits n) = n := by
  by_cases h : n < 10
  · rw [decimalDigits_of_lt h]
    simp [ofDigits]
  · have ih := ofDigits_decimalDigits (n / 10)
    rw [decimalDigits_of_not_lt h]
    unfold ofDigits at ih ⊢
    rw [List.foldl_append, ih, List.foldl_cons, List.foldl_nil]
    omega

theorem exists_decimalDigits_eq (n : Nat) :
    ∃ d ds, decimalDigits n = d :: ds ∧ (d = 0 → n = 0 ∧ ds = []) := by
  by_cases h : n < 10
  · exact ⟨n, [], decimalDigits_of_lt h, fun h0 => ⟨h0, rfl⟩⟩
  · obtain ⟨d, ds, hds, hzero⟩ := exists_decimalDigits_eq (n / 10)
    refine ⟨d, ds ++ [n % 10], by rw [decimalDigits_of_not_lt h, hds]; rfl, fun h0 => ?_⟩
    have := (hzero h0).1
    omega

theorem isDigit_digitChar : ∀ {d : Nat}, d < 10 → (digitChar d).isDigit = true := by
  decide

theorem digitValue?_digitChar : ∀ {d : Nat}, d < 10 → digitValue? 10 (digitChar d) = some d := by
  decide

theorem digitChar_ne (hc : c.isDigit = false) {d : Nat} (hd : d < 10) : digitChar d ≠ c := by
  rintro rfl
  rw [isDigit_digitChar hd] at hc
  cases hc

theorem digitChar_eq_zero : ∀ {d : Nat}, d < 10 → digitChar d = '0' → d = 0 := by
  decide

/-! ## Reading digits -/

theorem readMoreDigits_ended (h : Ended rest) : readMoreDigits 10 rest = some ([], rest) := by
  cases h <;> rfl

theorem readMoreDigits_written (h : Ended rest) : ∀ {ds : List Nat}, (∀ d ∈ ds, d < 10) →
    readMoreDigits 10 (ds.map digitChar ++ rest) = some (ds, rest)
  | [], _ => readMoreDigits_ended h
  | d :: ds, hds => by
    obtain ⟨hd, hds⟩ := List.forall_mem_cons.mp hds
    rw [List.map_cons, List.cons_append, readMoreDigits]
    · simp only [digitValue?_digitChar hd, readMoreDigits_written h hds, Option.map_some]
    · exact digitChar_ne (by decide) hd

theorem readWhole_written (n : Nat) (h : Ended rest) :
    readWhole (Json.digits n ++ rest) = some (decimalDigits n, rest) := by
  obtain ⟨d, ds, hds, hzero⟩ := exists_decimalDigits_eq n
  have hlt := lt_of_mem_decimalDigits n
  rw [hds] at hlt
  obtain ⟨hd, hlt⟩ := List.forall_mem_cons.mp hlt
  rw [digits_eq, hds, List.map_cons, List.cons_append]
  by_cases h0 : d = 0
  · obtain ⟨-, rfl⟩ := hzero h0
    subst h0
    rfl
  · rw [readWhole]
    · rw [readDigits]
      simp only [digitValue?_digitChar hd, readMoreDigits_written h hlt, Option.map_some]
    · rintro r hr
      exact h0 (digitChar_eq_zero hd (List.cons.inj hr).1)

theorem readSign_written (n : Int) (rest : List Char) : readSign (writeInteger n ++ rest) =
    (decide (n < 0), Json.digits n.natAbs ++ rest) := by
  cases n with
  | ofNat n =>
    obtain ⟨d, ds, hds, -⟩ := exists_decimalDigits_eq n
    have hd : d < 10 := lt_of_mem_decimalDigits n d (by rw [hds]; simp)
    have hdigits : Json.digits n = digitChar d :: ds.map digitChar := by rw [digits_eq, hds, List.map_cons]
    show readSign (Json.digits n ++ rest) = (_, Json.digits n ++ rest)
    rw [hdigits, List.cons_append, readSign]
    · rfl
    · rintro r hr
      exact digitChar_ne (by decide) hd (List.cons.inj hr).1
    · rintro r hr
      exact digitChar_ne (by decide) hd (List.cons.inj hr).1
  | negSucc n =>
    rw [decide_eq_true (Int.negSucc_lt_zero n)]
    rfl

/-- An integer begins with a minus or a digit, and nothing but digits follows before its end. -/
theorem writeInteger_append (n : Int) (h : Ended rest) : ∃ c cs, writeInteger n ++ rest = c :: cs ∧
    (c = '-' ∨ c.isDigit = true) ∧ ∀ d, cs.head? = some d → d.isDigit = true ∨ d ∈ ['\n', ',', ']'] := by
  have hended : ∀ d, rest.head? = some d → d.isDigit = true ∨ d ∈ ['\n', ',', ']'] := by
    intro d hd
    cases h with
    | newline => exact Or.inr (by simp [← Option.some.inj hd])
    | comma => exact Or.inr (by simp [← Option.some.inj hd])
    | bracket => exact Or.inr (by simp [← Option.some.inj hd])
  have hdigits : ∀ {ds : List Nat}, (∀ d ∈ ds, d < 10) →
      ∀ d, (ds.map digitChar ++ rest).head? = some d → d.isDigit = true ∨ d ∈ ['\n', ',', ']'] := by
    intro ds hds d hd
    cases ds with
    | nil => exact hended d hd
    | cons e es =>
      obtain rfl : digitChar e = d := by simpa using hd
      exact Or.inl (isDigit_digitChar (hds e (by simp)))
  cases n with
  | ofNat n =>
    obtain ⟨d, ds, hds, -⟩ := exists_decimalDigits_eq n
    have hlt := lt_of_mem_decimalDigits n
    rw [hds] at hlt
    refine ⟨digitChar d, ds.map digitChar ++ rest, ?_, Or.inr (isDigit_digitChar (hlt d (by simp))),
      hdigits fun e he => hlt e (by simp [he])⟩
    show Json.digits n ++ rest = _
    rw [digits_eq, hds]
    rfl
  | negSucc n =>
    refine ⟨'-', Json.digits (n + 1) ++ rest, rfl, Or.inl rfl, ?_⟩
    rw [digits_eq]
    exact hdigits (lt_of_mem_decimalDigits (n + 1))

theorem ne_of_begins_integer {x : Char} (hc : c = '-' ∨ c.isDigit = true) (hx : x ≠ '-')
    (hdigit : x.isDigit = false) : c ≠ x := by
  rintro rfl
  rcases hc with rfl | hc
  · exact hx rfl
  · rw [hdigit] at hc
    cases hc

/-! ## What digits are not -/

theorem readDecimal_written (h : Ended rest) : ∀ (k n : Nat) {ds : List Nat}, (∀ d ∈ ds, d < 10) →
    ∀ m r, readDecimal k n (ds.map digitChar ++ rest) = some (m, r) →
      ∃ es : List Nat, (∀ d ∈ es, d < 10) ∧ r = es.map digitChar ++ rest
  | 0, _, ds, hds, _, _, hr => ⟨ds, hds, (Prod.mk.inj (Option.some.inj hr)).2.symm⟩
  | k + 1, n, [], _, m, r, hr => by
    cases h <;> cases hr
  | k + 1, n, d :: ds, hds, m, r, hr => by
    obtain ⟨hd, hds⟩ := List.forall_mem_cons.mp hds
    rw [List.map_cons, List.cons_append, readDecimal, if_pos (isDigit_digitChar hd)] at hr
    exact readDecimal_written h k _ hds m r hr

theorem afterChar?_written (h : Ended rest) (hds : ∀ d ∈ ds, d < 10) (hc : c = '-' ∨ c = ':') :
    afterChar? c (ds.map digitChar ++ rest) = none := by
  cases ds with
  | nil => cases h <;> rcases hc with rfl | rfl <;> rfl
  | cons d ds =>
    have hne : digitChar d ≠ c := by
      rcases hc with rfl | rfl
      · exact digitChar_ne (by decide) (hds d (by simp))
      · exact digitChar_ne (by decide) (hds d (by simp))
    rw [List.map_cons, List.cons_append, afterChar?, if_neg hne]

theorem afterDate?_written (h : Ended rest) (hds : ∀ d ∈ ds, d < 10) :
    afterDate? (ds.map digitChar ++ rest) = none := by
  unfold afterDate?
  cases hyear : readDecimal 4 0 (ds.map digitChar ++ rest) with
  | none => rfl
  | some year =>
    obtain ⟨es, hes, hr⟩ := readDecimal_written h 4 0 hds _ _ hyear
    have hdash := afterChar?_written h hes (Or.inl rfl)
    rw [← hr] at hdash
    show (afterChar? '-' year.2).bind _ = none
    rw [hdash]
    rfl

theorem afterTime?_written (h : Ended rest) (hds : ∀ d ∈ ds, d < 10) :
    afterTime? (ds.map digitChar ++ rest) = none := by
  unfold afterTime? afterTwo?
  cases hhour : readDecimal 2 0 (ds.map digitChar ++ rest) with
  | none => rfl
  | some hour =>
    obtain ⟨es, hes, hr⟩ := readDecimal_written h 2 0 hds _ _ hhour
    have hcolon := afterChar?_written h hes (Or.inr rfl)
    rw [← hr] at hcolon
    simp only [Option.bind_some]
    split
    · show (afterChar? ':' hour.2).bind _ = none
      rw [hcolon]
      rfl
    · rfl

theorem afterMoment?_written (n : Int) (h : Ended rest) :
    afterMoment? (writeInteger n ++ rest) = none := by
  cases n with
  | ofNat n =>
    show afterMoment? (Json.digits n ++ rest) = none
    unfold afterMoment?
    rw [digits_eq, afterDate?_written h (lt_of_mem_decimalDigits n),
      afterTime?_written h (lt_of_mem_decimalDigits n)]
  | negSucc n => rfl

theorem readFraction_ended (h : Ended rest) : readFraction rest = none := by
  cases h <;> rfl

theorem afterFloat?_written (n : Int) (h : Ended rest) :
    afterFloat? (writeInteger n ++ rest) = none := by
  unfold afterFloat?
  rw [readSign_written]
  have hwhole := readWhole_written n.natAbs h
  obtain ⟨d, ds, hds, -⟩ := exists_decimalDigits_eq n.natAbs
  have hd : d < 10 := lt_of_mem_decimalDigits n.natAbs d (by rw [hds]; simp)
  have hdigits : Json.digits n.natAbs ++ rest = digitChar d :: (ds.map digitChar ++ rest) := by
    rw [digits_eq, hds]
    rfl
  simp only
  split
  · rename_i h
    rw [hdigits] at h
    exact absurd (List.cons.inj h).1 (digitChar_ne (by decide) hd)
  · rename_i h
    rw [hdigits] at h
    exact absurd (List.cons.inj h).1 (digitChar_ne (by decide) hd)
  · rw [hwhole]
    simp only [Option.bind_some, readFraction_ended h, Option.bind_none]

/-! ## Integers -/

theorem readInteger_written {n : Int} (hmin : minInteger ≤ n) (hmax : n ≤ maxInteger) (h : Ended rest) :
    readInteger (writeInteger n ++ rest) = some (n, rest) := by
  obtain ⟨c, cs, hcs, -, hnext⟩ := writeInteger_append n h
  -- no digit is taken for the mark of another base
  have hbase : ∀ {x : Char}, x.isDigit = false → x ∉ ['\n', ',', ']'] →
      ∀ r, writeInteger n ++ rest = '0' :: x :: r → False := by
    intro x hx hend r hr
    rw [hcs] at hr
    rw [(List.cons.inj hr).2] at hnext
    rcases hnext x rfl with hdigit | hmem
    · rw [hx] at hdigit
      cases hdigit
    · exact hend hmem
  have hvalue : (if decide (n < 0) = true then -(n.natAbs : Int) else n.natAbs) = n := by
    by_cases hn : n < 0
    · rw [if_pos (by simpa using hn)]
      omega
    · rw [if_neg (by simpa using hn)]
      omega
  rw [readInteger, readSign_written]
  · simp only [readWhole_written n.natAbs h, Option.bind_some, ofDigits_decimalDigits, hvalue]
    rw [integerInRange, if_pos ⟨hmin, hmax⟩]
  · exact hbase (by decide) (by decide)
  · exact hbase (by decide) (by decide)
  · exact hbase (by decide) (by decide)

theorem readScalar_integer {n : Int} (hmin : minInteger ≤ n) (hmax : n ≤ maxInteger) (h : Ended rest) :
    readScalar (writeInteger n ++ rest) = some (.integer n, rest) := by
  have hinteger := readInteger_written hmin hmax h
  have hfloat := afterFloat?_written n h
  have hmoment := afterMoment?_written n h
  obtain ⟨c, cs, hcs, hc, -⟩ := writeInteger_append n h
  rw [hcs] at hinteger hfloat hmoment ⊢
  -- an integer begins like no other value
  have hne : ∀ {x : Char}, x ≠ '-' → x.isDigit = false → c ≠ x := ne_of_begins_integer hc
  have hstring : readString (c :: cs) = none := by
    unfold readString
    split
    · rename_i hr
      exact absurd (List.cons.inj hr).1 (hne (by decide) (by decide))
    · rename_i hr
      exact absurd (List.cons.inj hr).1 (hne (by decide) (by decide))
    · unfold readLineString
      split
      · rename_i hr
        exact absurd (List.cons.inj hr).1 (hne (by decide) (by decide))
      · rename_i hr
        exact absurd (List.cons.inj hr).1 (hne (by decide) (by decide))
      · rfl
  unfold readScalar
  split
  · rename_i hr
    exact absurd (List.cons.inj hr).1 (hne (by decide) (by decide))
  · rename_i hr
    exact absurd (List.cons.inj hr).1 (hne (by decide) (by decide))
  · rw [hstring, hmoment, hfloat, hinteger]
    rfl

/-! ## Strings and arrays of strings -/

theorem readScalar_string (s : String) (h : Ended rest) :
    readScalar (writeString s ++ rest) = some (.string s, rest) := by
  obtain ⟨c, cs, hcs, hc⟩ := writeString_append s rest
  have hread := readString_writeString s h
  rw [hcs] at hread ⊢
  unfold readScalar
  split
  · rename_i hr
    rcases hc with rfl | rfl <;> cases hr
  · rename_i hr
    rcases hc with rfl | rfl <;> cases hr
  · rw [hread]

theorem readValueWithin_scalar (n : Nat) (hbracket : c ≠ '[') (hbrace : c ≠ '\x7b') (cs : List Char) :
    readValueWithin n (c :: cs) = readScalar (c :: cs) := by
  rw [readValueWithin]
  · rintro k ds rfl hds
    exact hbracket (List.cons.inj hds).1
  · rintro k ds rfl hds
    exact hbrace (List.cons.inj hds).1

theorem readValueWithin_string (n : Nat) (s : String) (h : Ended rest) :
    readValueWithin n (writeString s ++ rest) = some (.string s, rest) := by
  obtain ⟨c, cs, hcs, hc⟩ := writeString_append s rest
  have hread := readScalar_string s h
  rw [hcs] at hread ⊢
  rw [readValueWithin_scalar, hread]
  · rcases hc with rfl | rfl <;> decide
  · rcases hc with rfl | rfl <;> decide

theorem skipLayout_cons (hc : c ∉ [' ', '\t', '\n', '\r', '#']) (cs : List Char) :
    skipLayout (c :: cs) = c :: cs := by
  rw [skipLayout]
  · exact List.cons_ne_nil c cs
  all_goals
    rintro ds hds
    exact hc (by simp [(List.cons.inj hds).1])

theorem skipLayout_string (s : String) (rest : List Char) :
    skipLayout (writeString s ++ rest) = writeString s ++ rest := by
  obtain ⟨c, cs, hcs, hc⟩ := writeString_append s rest
  rw [hcs, skipLayout_cons]
  rcases hc with rfl | rfl <;> decide

theorem head?_writeString_ne (s : String) (rest : List Char) :
    (writeString s ++ rest).head? ≠ some ']' := by
  obtain ⟨c, cs, hcs, hc⟩ := writeString_append s rest
  rw [hcs]
  rcases hc with rfl | rfl <;> simp

section
variable {item : Reader Value} {v : Value} (hlayout : skipLayout cs = cs)
  (hbracket : cs.head? ≠ some ']') (n : Nat)
include hlayout hbracket

theorem readItems_comma (hitem : item cs = some (v, ',' :: rest)) :
    readItems item (n + 1) cs = (readItems item n rest).map fun x => (v :: x.1, x.2) := by
  have hcomma : skipLayout (',' :: rest) = ',' :: rest := skipLayout_cons (by decide) rest
  rw [readItems, hlayout]
  split
  · exact absurd rfl hbracket
  · simp only [hitem, hcomma]

theorem readItems_last (hitem : item cs = some (v, ']' :: rest)) :
    readItems item (n + 1) cs = some ([v], rest) := by
  have hend : skipLayout (']' :: rest) = ']' :: rest := skipLayout_cons (by decide) rest
  rw [readItems, hlayout]
  split
  · exact absurd rfl hbracket
  · simp only [hitem, hend]

end

theorem readItems_skipLayout (item : Reader Value) (n : Nat) (h : skipLayout cs = skipLayout rest) :
    readItems item n cs = readItems item n rest := by
  cases n with
  | zero => rfl
  | succ n => rw [readItems, readItems, h]

theorem readItems_bracket (item : Reader Value) (n : Nat) (rest : List Char) :
    readItems item (n + 1) (']' :: rest) = some ([], rest) := by
  rw [readItems, skipLayout_cons (by decide)]
  rfl

theorem readItems_written (n : Nat) (rest : List Char) : ∀ (items : List String) {k : Nat},
    items.length < k → readItems (readValueWithin n) k ('\n' :: (writeItems items ++ ']' :: rest)) =
      some (items.map .string, rest)
  | [], k + 1, _ => by
    have hskip : skipLayout ('\n' :: ']' :: rest) = skipLayout (']' :: rest) := by rw [skipLayout]
    rw [writeItems, List.flatMap_nil, List.nil_append, readItems_skipLayout _ _ hskip, readItems_bracket]
    rfl
  | s :: items, k + 1, hk => by
    have hitems : '\n' :: (writeItems (s :: items) ++ ']' :: rest) = '\n' :: ' ' :: ' ' :: ' ' :: ' ' ::
        (writeString s ++ ',' :: '\n' :: (writeItems items ++ ']' :: rest)) := by
      simp [writeItems]
    have hskip : ∀ cs, skipLayout ('\n' :: ' ' :: ' ' :: ' ' :: ' ' :: cs) = skipLayout cs := by
      intro cs
      rw [skipLayout, skipLayout, skipLayout, skipLayout, skipLayout]
    have ih := readItems_written n rest items (k := k) (by simpa using hk)
    rw [hitems, readItems_skipLayout _ _ (hskip _), readItems_comma (skipLayout_string s _)
      (head?_writeString_ne s _) k (readValueWithin_string n s (.comma _)), ih]
    rfl

theorem length_le_writeItems : ∀ items : List String, items.length ≤ (writeItems items).length
  | [] => Nat.le_refl 0
  | s :: items => by
    have := length_le_writeItems items
    unfold writeItems at this ⊢
    rw [List.flatMap_cons, List.length_append, List.length_append, List.length_cons]
    simp only [List.length_cons, List.length_nil]
    omega

theorem readValueWithin_strings (n : Nat) (items : List String) (rest : List Char) :
    readValueWithin (n + 1) (writeStrings items ++ rest) = some (.array (items.map .string), rest) := by
  have hread : ∀ cs vs, readItems (readValueWithin n) (cs.length + 1) cs = some (vs, rest) →
      readValueWithin (n + 1) ('[' :: cs) = some (.array vs, rest) := by
    intro cs vs h
    rw [readValueWithin, h]
    rfl
  unfold writeStrings
  split
  · exact hread (']' :: rest) [] (readItems_bracket _ _ _)
  · rename_i s
    have hitem := readItems_last (skipLayout_string s _) (head?_writeString_ne s _)
      (writeString s ++ ']' :: rest).length (readValueWithin_string n s (.bracket rest))
    simpa using hread _ _ hitem
  · have hlen := length_le_writeItems items
    have hitems := readItems_written n rest items
      (k := ('\n' :: (writeItems items ++ ']' :: rest)).length + 1) (by
        rw [List.length_cons, List.length_append]
        omega)
    simpa using hread _ _ hitems

/-! ## Settings -/

/-- A setting that TOML can hold: an integer has 64 bits with a sign. -/
def Setting.Fits : Setting → Prop
  | .integer n => minInteger ≤ n ∧ n ≤ maxInteger
  | _ => True

/-- A setting that was written is read back. -/
theorem readValue_written {v : Setting} (hv : v.Fits) (h : Ended rest) :
    readValue (v.chars ++ rest) = some (v.value, rest) := by
  cases v with
  | string s => exact readValueWithin_string nestingLimit s h
  | strings ss => exact readValueWithin_strings _ ss rest
  | integer n =>
    obtain ⟨c, cs, hcs, hc, -⟩ := writeInteger_append n h
    have hread := readScalar_integer hv.1 hv.2 h
    show readValueWithin nestingLimit (writeInteger n ++ rest) = some (.integer n, rest)
    rw [hcs] at hread ⊢
    rw [readValueWithin_scalar, hread]
    · exact ne_of_begins_integer hc (by decide) (by decide)
    · exact ne_of_begins_integer hc (by decide) (by decide)
  | boolean b => cases b <;> rfl

end OnDemand.Toml
