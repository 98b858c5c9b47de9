import Mathlib
import OnDemand.Proofs.Toml.Rest
import OnDemand.Proofs.Toml.Values

/-!
# Values without the keys in them

When the keys in a value are taken out, its arrays stay as long as they are and its tables become empty.
What is left of a value that was read can be written, and it is read back (`writtenWithin_of_read`).
-/

namespace OnDemand.Toml

variable {n m : Nat} {v : Value} {vs : List Value} {c : Char} {cs rest : List Char}

namespace Value

mutual

def stripped : Value → Value
  | .array items => .array (strippedAll items)
  | .table _ _ => .table .closed []
  | .tables elements => .tables (elements.map fun _ => [])
  | .string s => .string s
  | .integer n => .integer n
  | .float => .float
  | .boolean b => .boolean b
  | .moment => .moment

def strippedAll : List Value → List Value
  | [] => []
  | v :: vs => v.stripped :: strippedAll vs

end

mutual

/-- How many keys are in a value, those inside other keys' values not counted. -/
def keyCount : Value → Nat
  | .array items => keyCountAll items
  | .table _ fields => fields.length
  | .tables elements => (elements.map List.length).sum
  | _ => 0

def keyCountAll : List Value → Nat
  | [] => 0
  | v :: vs => v.keyCount + keyCountAll vs

end

mutual

/-- A value as it is written without the keys in it. Of numbers with a fraction and of times one
stands for all. -/
def chars : Value → List Char
  | .string s => writeString s
  | .integer n => writeInteger n
  | .float => ['0', '.', '0']
  | .boolean true => ['t', 'r', 'u', 'e']
  | .boolean false => ['f', 'a', 'l', 's', 'e']
  | .moment => ['0', '0', ':', '0', '0', ':', '0', '0']
  | .array items => '[' :: (charsAll items ++ [']'])
  | .table _ _ => ['\x7b', '\x7d']
  | .tables _ => []

def charsAll : List Value → List Char
  | [] => []
  | v :: vs => v.chars ++ ',' :: charsAll vs

end

theorem strippedAll_eq_map : ∀ vs : List Value, strippedAll vs = vs.map stripped
  | [] => rfl
  | v :: vs => by rw [strippedAll, strippedAll_eq_map vs, List.map_cons]

theorem length_le_charsAll : ∀ vs : List Value, vs.length ≤ (charsAll vs).length
  | [] => Nat.le_refl 0
  | v :: vs => by
    have := length_le_charsAll vs
    rw [charsAll, List.length_append, List.length_cons, List.length_cons]
    omega

inductive IsScalar : Value → Prop
  | string (s : String) : IsScalar (.string s)
  | integer {n : Int} (hmin : minInteger ≤ n) (hmax : n ≤ maxInteger) : IsScalar (.integer n)
  | float : IsScalar .float
  | boolean (b : Bool) : IsScalar (.boolean b)
  | moment : IsScalar .moment

theorem IsScalar.stripped (h : IsScalar v) : v.stripped = v := by
  cases h <;> rfl

def isTable : Value → Bool
  | .table _ _ => true
  | .tables _ => true
  | _ => false

theorem IsScalar.isTable (h : IsScalar v) : v.isTable = false := by
  cases h <;> rfl

end Value

open Value

/-! ## Scalars -/

theorem inRange_of_integerInRange {k i : Int} (h : integerInRange k cs = some (i, rest)) :
    minInteger ≤ i ∧ i ≤ maxInteger := by
  unfold integerInRange at h
  split at h
  · rename_i hrange
    cases h
    exact hrange
  · cases h

theorem inRange_of_readInteger {i : Int} (h : readInteger cs = some (i, rest)) :
    minInteger ≤ i ∧ i ≤ maxInteger := by
  unfold readInteger at h
  split at h
  · obtain ⟨x, -, h⟩ := Option.bind_eq_some_iff.mp h
    exact inRange_of_integerInRange h
  · obtain ⟨x, -, h⟩ := Option.bind_eq_some_iff.mp h
    exact inRange_of_integerInRange h
  · obtain ⟨x, -, h⟩ := Option.bind_eq_some_iff.mp h
    exact inRange_of_integerInRange h
  · obtain ⟨x, -, h⟩ := Option.bind_eq_some_iff.mp h
    exact inRange_of_integerInRange h

theorem isScalar_of_readScalar (h : readScalar cs = some (v, rest)) : v.IsScalar := by
  unfold readScalar at h
  split at h
  · cases h
    exact .boolean true
  · cases h
    exact .boolean false
  · split at h
    · cases h
      exact .string _
    · split at h
      · cases h
        exact .moment
      · split at h
        · cases h
          exact .float
        · obtain ⟨⟨i, rest'⟩, hi, hv⟩ := Option.map_eq_some_iff.mp h
          cases hv
          obtain ⟨hmin, hmax⟩ := inRange_of_readInteger hi
          exact .integer hmin hmax

theorem readScalar_float (h : Ended rest) :
    readScalar ('0' :: '.' :: '0' :: rest) = some (.float, rest) := by
  cases h <;> rfl

theorem readScalar_moment (h : Ended rest) :
    readScalar ('0' :: '0' :: ':' :: '0' :: '0' :: ':' :: '0' :: '0' :: rest) = some (.moment, rest) := by
  cases h <;> rfl

theorem readScalar_chars (hv : v.IsScalar) (h : Ended rest) :
    readScalar (v.chars ++ rest) = some (v, rest) := by
  cases hv with
  | string s => exact readScalar_string s h
  | integer hmin hmax => exact readScalar_integer hmin hmax h
  | float => exact readScalar_float h
  | boolean b => cases b <;> rfl
  | moment => exact readScalar_moment h

theorem Value.IsScalar.chars_append (hv : v.IsScalar) (h : Ended rest) : ∃ c cs, v.chars ++ rest = c :: cs ∧
    c ∉ [' ', '\t', '\n', '\r', '#', '[', ']', '\x7b'] := by
  cases hv with
  | string s =>
    obtain ⟨c, cs, hcs, hc⟩ := writeString_append s rest
    refine ⟨c, cs, hcs, ?_⟩
    rcases hc with rfl | rfl <;> decide
  | @integer i hmin hmax =>
    obtain ⟨c, cs, hcs, hc, -⟩ := writeInteger_append i h
    refine ⟨c, cs, hcs, ?_⟩
    have hne : ∀ {x : Char}, x ≠ '-' → x.isDigit = false → c ≠ x := ne_of_begins_integer hc
    simp only [List.mem_cons, List.not_mem_nil, or_false, not_or]
    exact ⟨hne (by decide) (by decide), hne (by decide) (by decide), hne (by decide) (by decide),
      hne (by decide) (by decide), hne (by decide) (by decide), hne (by decide) (by decide),
      hne (by decide) (by decide), hne (by decide) (by decide)⟩
  | float => exact ⟨_, _, rfl, by decide⟩
  | boolean b => cases b <;> exact ⟨_, _, rfl, by decide⟩
  | moment => exact ⟨_, _, rfl, by decide⟩

/-! ## Arrays and tables -/

/-- A value is written so that what is left of it is read by a reader that goes so deep. -/
structure WrittenWithin (n : Nat) (v : Value) : Prop where
  starts : ∀ {rest}, Ended rest → ∃ c cs, v.chars ++ rest = c :: cs ∧
    c ∉ [' ', '\t', '\n', '\r', '#', ']']
  reads : ∀ {m rest}, n ≤ m → Ended rest →
    readValueWithin m (v.chars ++ rest) = some (v.stripped, rest)

theorem Value.IsScalar.writtenWithin (hv : v.IsScalar) (n : Nat) : WrittenWithin n v where
  starts h := by
    obtain ⟨c, cs, hcs, hc⟩ := hv.chars_append h
    exact ⟨c, cs, hcs, fun hmem => hc (by simp_all)⟩
  reads {m rest} _ h := by
    have hread := readScalar_chars hv h
    obtain ⟨c, cs, hcs, hc⟩ := hv.chars_append h
    rw [hcs] at hread ⊢
    rw [readValueWithin_scalar, hread, hv.stripped]
    · exact fun he => hc (by simp [he])
    · exact fun he => hc (by simp [he])

theorem readItems_charsAll (hnm : n ≤ m) : ∀ {vs : List Value} {k : Nat} (rest : List Char),
    (∀ v ∈ vs, WrittenWithin n v) → vs.length < k →
    readItems (readValueWithin m) k (charsAll vs ++ ']' :: rest) = some (strippedAll vs, rest)
  | [], k + 1, rest, _, _ => readItems_bracket _ _ _
  | v :: vs, k + 1, rest, hvs, hk => by
    obtain ⟨hv, hvs⟩ := List.forall_mem_cons.mp hvs
    have hcomma := Ended.comma (charsAll vs ++ ']' :: rest)
    obtain ⟨c, cs, hcs, hc⟩ := hv.starts hcomma
    have hitem := hv.reads hnm hcomma
    have ih := readItems_charsAll hnm (k := k) rest hvs (by simpa using hk)
    rw [charsAll, List.append_assoc, List.cons_append]
    rw [hcs] at hitem ⊢
    rw [readItems_comma (skipLayout_cons (fun hmem => hc (by simp_all)) cs) _ k hitem, ih]
    · rfl
    · rintro hb
      exact hc (by simp [Option.some.inj hb])

theorem exists_of_mem_readItems {item : Reader Value} : ∀ {k : Nat} {cs rest : List Char}
    {vs : List Value}, readItems item k cs = some (vs, rest) →
    ∀ v ∈ vs, ∃ cs rest, item cs = some (v, rest)
  | k + 1, cs, rest, vs, h => by
    rw [readItems] at h
    split at h
    · cases h
      simp
    · split at h
      · cases h
      · rename_i ds v es hv
        split at h
        · cases h
          exact fun w hw => List.mem_singleton.mp hw ▸ ⟨_, _, hv⟩
        · obtain ⟨⟨vs', rest'⟩, hvs, h⟩ := Option.map_eq_some_iff.mp h
          cases h
          exact List.forall_mem_cons.mpr ⟨⟨_, _, hv⟩, exists_of_mem_readItems hvs⟩
        · cases h

theorem WrittenWithin.array (h : ∀ v ∈ vs, WrittenWithin n v) : WrittenWithin (n + 1) (.array vs) where
  starts _ := ⟨_, _, rfl, by decide⟩
  reads {m rest} hm _ := by
    obtain ⟨m, rfl⟩ : ∃ k, m = k + 1 := ⟨m - 1, by omega⟩
    have hlen := length_le_charsAll vs
    have hchars : (Value.array vs).chars ++ rest = '[' :: (charsAll vs ++ ']' :: rest) := by
      simp [Value.chars]
    rw [hchars, readValueWithin, readItems_charsAll (Nat.le_of_succ_le_succ hm) rest h, Value.stripped]
    · rfl
    · rw [List.length_append]
      omega

theorem WrittenWithin.table (form : Form) (fields : Fields) :
    WrittenWithin (n + 1) (.table form fields) where
  starts _ := ⟨_, _, rfl, by decide⟩
  reads {m rest} hm _ := by
    obtain ⟨m, rfl⟩ : ∃ k, m = k + 1 := ⟨m - 1, by omega⟩
    rfl

/-- What was read can be written without the keys in it. -/
theorem writtenWithin_of_read : ∀ {n : Nat} {cs rest : List Char} {v : Value},
    readValueWithin n cs = some (v, rest) → WrittenWithin n v
  | 0, cs, rest, v, h => by
    rw [readValueWithin_zero] at h
    exact (isScalar_of_readScalar h).writtenWithin 0
  | n + 1, cs, rest, v, h => by
    rw [readValueWithin.eq_def] at h
    split at h
    · rename_i k ds heq
      cases heq
      obtain ⟨⟨vs, rest'⟩, hvs, hv⟩ := Option.map_eq_some_iff.mp h
      cases hv
      refine .array fun w hw => ?_
      obtain ⟨cs, rest, hw⟩ := exists_of_mem_readItems hvs w hw
      exact writtenWithin_of_read hw
    · unfold readBraces at h
      split at h
      · cases h
        exact .table _ _
      · split at h
        · cases h
        · obtain ⟨fs, -, hv⟩ := Option.map_eq_some_iff.mp h
          cases hv
          exact .table _ _
    · exact (isScalar_of_readScalar h).writtenWithin _

theorem WrittenWithin.mono (h : WrittenWithin n v) (hnm : n ≤ m) : WrittenWithin m v :=
  ⟨h.starts, fun hm => h.reads (Nat.le_trans hnm hm)⟩

theorem inRange_of_readValueWithin {i : Int} (h : readValueWithin n cs = some (.integer i, rest)) :
    minInteger ≤ i ∧ i ≤ maxInteger := by
  have hscalar : ∀ {cs}, readScalar cs = some (.integer i, rest) → minInteger ≤ i ∧ i ≤ maxInteger := by
    intro cs h
    cases isScalar_of_readScalar h with
    | integer hmin hmax => exact ⟨hmin, hmax⟩
  rw [readValueWithin.eq_def] at h
  split at h
  · obtain ⟨x, -, hx⟩ := Option.map_eq_some_iff.mp h
    cases hx
  · unfold readBraces at h
    split at h
    · cases h
    · split at h
      · cases h
      · obtain ⟨x, -, hx⟩ := Option.map_eq_some_iff.mp h
        cases hx
  · exact hscalar h

end OnDemand.Toml
