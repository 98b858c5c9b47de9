import OnDemand.Proofs.Toml.Values

/-!
# JSON written and read

A reader of JSON: values with blanks between their parts, and all escapes in strings. Of numbers it
takes the counts, because the values have no others. It reads every value back from the text that the
value is written as (`read?_text`), and that text is one line (`not_lt_space_of_mem_chars`).
-/

namespace OnDemand.Json

open Toml (Reader readHex readHex_length before)

/-! ## Reading strings -/

/-- A character of the planes beyond the first, from the two units that it is escaped as. -/
def readPair (high : Nat) : Reader Char
  | '\\' :: 'u' :: cs =>
    match readHex 4 0 cs with
    | some (low, rest) =>
      if 0xd800 ≤ high ∧ high < 0xdc00 ∧ 0xdc00 ≤ low ∧ low < 0xe000 then
        some (Char.ofNat (0x10000 + (high - 0xd800) * 0x400 + (low - 0xdc00)), rest)
      else none
    | none => none
  | _ => none

def readEscape : Reader Char
  | '"' :: cs => some ('"', cs)
  | '\\' :: cs => some ('\\', cs)
  | '/' :: cs => some ('/', cs)
  | 'b' :: cs => some ('\x08', cs)
  | 't' :: cs => some ('\t', cs)
  | 'n' :: cs => some ('\n', cs)
  | 'f' :: cs => some ('\x0c', cs)
  | 'r' :: cs => some ('\r', cs)
  | 'u' :: cs =>
    match readHex 4 0 cs with
    | some (n, rest) => if n.isValidChar then some (Char.ofNat n, rest) else readPair n rest
    | none => none
  | _ => none

theorem readPair_length {high : Nat} {cs rest : List Char} {c : Char}
    (h : readPair high cs = some (c, rest)) : rest.length ≤ cs.length := by
  unfold readPair at h
  split at h
  · rename_i cs
    split at h
    · rename_i low r hlow
      have hlen := readHex_length 4 0 cs low r hlow
      split at h
      · obtain ⟨-, rfl⟩ := Prod.mk.inj (Option.some.inj h)
        simp only [List.length_cons]
        omega
      · cases h
    · cases h
  · cases h

theorem readEscape_length {cs rest : List Char} {c : Char} (h : readEscape cs = some (c, rest)) :
    rest.length < cs.length := by
  unfold readEscape at h
  split at h
  case h_9 cs =>
    split at h
    · rename_i n r hn
      have hlen := readHex_length 4 0 cs n r hn
      simp only [List.length_cons]
      split at h
      · obtain ⟨-, rfl⟩ := Prod.mk.inj (Option.some.inj h)
        omega
      · have := readPair_length h
        omega
    · cases h
  case h_10 => cases h
  all_goals
    obtain ⟨-, rfl⟩ := Prod.mk.inj (Option.some.inj h)
    simp

def readChars : List Char → Option (List Char × List Char)
  | [] => none
  | '"' :: cs => some ([], cs)
  | '\\' :: cs =>
    match h : readEscape cs with
    | some (c, rest) =>
      have := readEscape_length h
      before [c] (readChars rest)
    | none => none
  | c :: cs => if c.toNat < 0x20 then none else before [c] (readChars cs)
termination_by cs => cs.length
decreasing_by all_goals simp only [List.length_cons]; omega

/-! ## Reading values -/

def skipBlanks (cs : List Char) : List Char :=
  cs.dropWhile fun c => c == ' ' || c == '\t' || c == '\n' || c == '\r'

/-- One or more items with commas between them, and the closing bracket. The number bounds how many
there are. -/
def readList {α : Type} (close : Char) (item : Reader α) : Nat → Reader (List α)
  | 0, _ => none
  | n + 1, cs =>
    match item cs with
    | none => none
    | some (x, cs) =>
      match skipBlanks cs with
      | [] => none
      | c :: rest =>
        if c = close then some ([x], rest)
        else if c = ',' then (readList close item n rest).map fun (xs, rest) => (x :: xs, rest)
        else none

def readItems {α : Type} (close : Char) (item : Reader α) (n : Nat) (cs : List Char) :
    Option (List α × List Char) :=
  match skipBlanks cs with
  | [] => none
  | c :: rest => if c = close then some ([], rest) else readList close item n (c :: rest)

def readField (value : Reader Json) (cs : List Char) : Option ((String × Json) × List Char) :=
  match skipBlanks cs with
  | '"' :: cs =>
    match readChars cs with
    | none => none
    | some (key, cs) =>
      match skipBlanks cs with
      | ':' :: cs => (value cs).map fun (j, rest) => ((String.ofList key, j), rest)
      | _ => none
  | _ => none

def readCount (cs : List Char) : Option (Json × List Char) :=
  let digits := cs.takeWhile Char.isDigit
  if digits = [] ∨ (digits.head? = some '0' ∧ digits ≠ ['0']) then none
  else some (.number (digits.foldl (fun n c => n * 10 + (c.toNat - 48)) 0), cs.dropWhile Char.isDigit)

/-- A value in which arrays and objects are nested less deep than a number. -/
def readWithin : Nat → Reader Json
  | 0, _ => none
  | n + 1, cs =>
    match skipBlanks cs with
    | 'n' :: 'u' :: 'l' :: 'l' :: rest => some (.null, rest)
    | 't' :: 'r' :: 'u' :: 'e' :: rest => some (.bool true, rest)
    | 'f' :: 'a' :: 'l' :: 's' :: 'e' :: rest => some (.bool false, rest)
    | '"' :: cs => (readChars cs).map fun (s, rest) => (.string (String.ofList s), rest)
    | '[' :: cs => (readItems ']' (readWithin n) n cs).map fun (js, rest) => (.array js, rest)
    | '\x7b' :: cs =>
      (readItems '\x7d' (readField (readWithin n)) n cs).map fun (fs, rest) => (.members fs, rest)
    | cs => readCount cs

def read? (text : String) : Option Json :=
  match readWithin (text.toList.length + 1) text.toList with
  | some (j, rest) => if skipBlanks rest = [] then some j else none
  | none => none

variable {c : Char} {cs rest : List Char}

/-! ## Strings -/

theorem hexValue?_hexDigit : ∀ {n : Nat}, n < 16 → Toml.hexValue? (Text.hexDigit n) = some n := by
  decide

theorem readHex_hexDigit (h : c.toNat < 0x20) : readHex 4 0
    ('0' :: '0' :: Text.hexDigit (c.toNat / 16) :: Text.hexDigit (c.toNat % 16) :: rest) =
      some (c.toNat, rest) := by
  have hhigh := hexValue?_hexDigit (n := c.toNat / 16) (by omega)
  have hlow := hexValue?_hexDigit (n := c.toNat % 16) (by omega)
  have hzero : Toml.hexValue? '0' = some 0 := by decide
  have hnumber : c.toNat / 16 * 16 + c.toNat % 16 = c.toNat := by omega
  simp [readHex, hzero, hhigh, hlow, hnumber]

/-- A character stands for itself, or for it stands a backslash and what is read as the character. -/
theorem escape_cases (c : Char) :
    (escape c = [c] ∧ c ≠ '"' ∧ c ≠ '\\' ∧ ¬ c.toNat < 0x20) ∨
      ∃ e, escape c = '\\' :: e ∧ ∀ rest, readEscape (e ++ rest) = some (c, rest) := by
  unfold escape
  split
  · subst_vars
    exact Or.inr ⟨_, rfl, fun rest => rfl⟩
  split
  · subst_vars
    exact Or.inr ⟨_, rfl, fun rest => rfl⟩
  split
  · subst_vars
    exact Or.inr ⟨_, rfl, fun rest => rfl⟩
  split
  · subst_vars
    exact Or.inr ⟨_, rfl, fun rest => rfl⟩
  split
  · subst_vars
    exact Or.inr ⟨_, rfl, fun rest => rfl⟩
  split
  · subst_vars
    exact Or.inr ⟨_, rfl, fun rest => rfl⟩
  split
  · subst_vars
    exact Or.inr ⟨_, rfl, fun rest => rfl⟩
  split
  · rename_i hc
    refine Or.inr ⟨_, rfl, fun rest => ?_⟩
    have hvalid : c.toNat.isValidChar := c.valid
    simp only [List.cons_append, List.nil_append, readEscape, readHex_hexDigit hc, if_pos hvalid,
      Char.ofNat_toNat]
  · rename_i hquote hback _ _ _ _ _ hc
    exact Or.inl ⟨rfl, hquote, hback, hc⟩

theorem readChars_backslash (h : readEscape cs = some (c, rest)) :
    readChars ('\\' :: cs) = before [c] (readChars rest) := by
  rw [readChars]
  split
  · rename_i h'
    rw [h] at h'
    cases h'
    rfl
  · rename_i h'
    rw [h] at h'
    cases h'

theorem readChars_escape (c : Char) (rest : List Char) :
    readChars (escape c ++ rest) = before [c] (readChars rest) := by
  obtain ⟨he, hquote, hback, hc⟩ | ⟨e, he, hread⟩ := escape_cases c
  · rw [he, List.singleton_append, readChars]
    · rw [if_neg hc]
    · exact hquote
    · exact hback
  · rw [he, List.cons_append, readChars_backslash (hread rest)]

theorem readChars_written : ∀ cs rest : List Char,
    readChars (cs.flatMap escape ++ '"' :: rest) = some (cs, rest)
  | [], rest => by simp [readChars]
  | c :: cs, rest => by
    rw [List.flatMap_cons, List.append_assoc, readChars_escape, readChars_written cs rest]
    rfl

theorem quoted_append (s : String) (rest : List Char) :
    quoted s ++ rest = '"' :: (s.toList.flatMap escape ++ '"' :: rest) := by
  simp [quoted]

/-! ## Counts -/

def Stops (rest : List Char) : Prop :=
  ∀ c, rest.head? = some c → c.isDigit = false

theorem foldl_digitChar : ∀ (ds : List Nat) (n : Nat), (∀ d ∈ ds, d < 10) →
    (ds.map Toml.digitChar).foldl (fun n c => n * 10 + (c.toNat - 48)) n =
      ds.foldl (fun n d => n * 10 + d) n
  | [], _, _ => rfl
  | d :: ds, n, h => by
    obtain ⟨hd, hds⟩ := List.forall_mem_cons.mp h
    have hvalue : ∀ d < 10, (Toml.digitChar d).toNat - 48 = d := by decide
    rw [List.map_cons, List.foldl_cons, List.foldl_cons, hvalue d hd, foldl_digitChar ds _ hds]

theorem readCount_written (n : Nat) (h : Stops rest) :
    readCount (digits n ++ rest) = some (.number n, rest) := by
  have hlt := Toml.lt_of_mem_decimalDigits n
  have hdigit : ∀ c ∈ digits n, c.isDigit = true := by
    rw [Toml.digits_eq]
    rintro _ hc
    obtain ⟨d, hd, rfl⟩ := List.mem_map.mp hc
    exact Toml.isDigit_digitChar (hlt d hd)
  have hstop : rest.takeWhile Char.isDigit = [] ∧ rest.dropWhile Char.isDigit = rest := by
    cases rest with
    | nil => exact ⟨rfl, rfl⟩
    | cons c cs =>
      have hc : ¬ c.isDigit = true := by simp [h c rfl]
      exact ⟨List.takeWhile_cons_of_neg hc, List.dropWhile_cons_of_neg hc⟩
  have htake : (digits n ++ rest).takeWhile Char.isDigit = digits n := by
    rw [List.takeWhile_append_of_pos hdigit, hstop.1, List.append_nil]
  have hdrop : (digits n ++ rest).dropWhile Char.isDigit = rest := by
    rw [List.dropWhile_append_of_pos hdigit, hstop.2]
  have hvalue : (digits n).foldl (fun n c => n * 10 + (c.toNat - 48)) 0 = n := by
    rw [Toml.digits_eq, foldl_digitChar _ _ hlt]
    exact Toml.ofDigits_decimalDigits n
  -- decimal digits have no zero in front
  have hform : ¬ (digits n = [] ∨ (digits n).head? = some '0' ∧ digits n ≠ ['0']) := by
    obtain ⟨d, ds, hds, hzero⟩ := Toml.exists_decimalDigits_eq n
    rw [hds] at hlt
    rw [Toml.digits_eq, hds, List.map_cons]
    rintro (hnil | ⟨hhead, hne⟩)
    · cases hnil
    · have hd : d = 0 := Toml.digitChar_eq_zero (hlt d (by simp)) (by simpa using hhead)
      obtain ⟨-, rfl⟩ := hzero hd
      exact hne (by rw [hd]; rfl)
  unfold readCount
  simp only [htake, hdrop, hvalue, if_neg hform]

/-! ## Lists -/

theorem skipBlanks_cons (hc : c ∉ [' ', '\t', '\n', '\r']) (cs : List Char) :
    skipBlanks (c :: cs) = c :: cs := by
  simp only [List.mem_cons, List.not_mem_nil, or_false, not_or] at hc
  exact List.dropWhile_cons_of_neg (by simp [hc])

section
variable {α : Type} {item : Reader α} {write : α → List Char} {close : Char}

/-- An item that is read back, whatever follows that does not go on with it. -/
structure Reads (item : Reader α) (write : α → List Char) (x : α) : Prop where
  begins : ∃ c cs, write x = c :: cs ∧ c ∉ [' ', '\t', '\n', '\r', ']', '\x7d']
  read : ∀ rest, Stops rest → item (write x ++ rest) = some (x, rest)

theorem stops_cons (hc : c.isDigit = false) (cs : List Char) : Stops (c :: cs) := by
  rintro d hd
  obtain rfl := Option.some.inj hd
  exact hc

theorem readList_written (hclose : close = ']' ∨ close = '\x7d') (rest : List Char) : ∀ (n : Nat) {x : α}
    {xs : List α}, (∀ y ∈ x :: xs, Reads item write y) → xs.length < n →
    readList close item n ([','].intercalate ((x :: xs).map write) ++ close :: rest) = some (x :: xs, rest)
  | n + 1, x, [], h, _ => by
    have hread := (h x (by simp)).read (close :: rest)
      (stops_cons (by rcases hclose with rfl | rfl <;> decide) rest)
    have hskip : skipBlanks (close :: rest) = close :: rest :=
      skipBlanks_cons (by rcases hclose with rfl | rfl <;> decide) rest
    rw [List.map_singleton, List.intercalate_singleton, readList, hread]
    simp only [hskip, if_true]
  | n + 1, x, y :: xs, h, hn => by
    obtain ⟨hx, hxs⟩ := List.forall_mem_cons.mp h
    have ih := readList_written hclose rest n hxs (by simpa using hn)
    have htext : [','].intercalate ((x :: y :: xs).map write) ++ close :: rest =
        write x ++ ',' :: ([','].intercalate ((y :: xs).map write) ++ close :: rest) := by
      simp [List.intercalate_cons_cons]
    have hread := hx.read (',' :: ([','].intercalate ((y :: xs).map write) ++ close :: rest))
      (stops_cons (by decide) _)
    have hne : ',' ≠ close := by rcases hclose with rfl | rfl <;> decide
    rw [htext, readList, hread]
    simp only [skipBlanks_cons (c := ',') (by decide), if_neg hne, if_true, ih, Option.map_some]

theorem readItems_written (hclose : close = ']' ∨ close = '\x7d') (rest : List Char) (n : Nat) :
    ∀ {xs : List α}, (∀ x ∈ xs, Reads item write x) → xs.length ≤ n →
    readItems close item n ([','].intercalate (xs.map write) ++ close :: rest) = some (xs, rest)
  | [], _, _ => by
    have hskip : skipBlanks (close :: rest) = close :: rest :=
      skipBlanks_cons (by rcases hclose with rfl | rfl <;> decide) rest
    show readItems close item n (close :: rest) = some ([], rest)
    unfold readItems
    simp only [hskip, if_true]
  | x :: xs, h, hn => by
    obtain ⟨c, cs, hcs, hc⟩ := (h x (by simp)).begins
    simp only [List.mem_cons, List.not_mem_nil, or_false, not_or] at hc
    have hne : c ≠ close := by rcases hclose with rfl | rfl <;> simp [hc]
    have hread := readList_written hclose rest n h hn
    obtain ⟨ds, hds⟩ : ∃ ds, [','].intercalate ((x :: xs).map write) ++ close :: rest = c :: ds := by
      cases xs with
      | nil => exact ⟨cs ++ close :: rest, by simp [hcs]⟩
      | cons y ys => exact ⟨_, by rw [List.map_cons, List.map_cons, List.intercalate_cons_cons, hcs]; rfl⟩
    rw [hds] at hread ⊢
    unfold readItems
    rw [skipBlanks_cons (by simp [hc])]
    simp only [if_neg hne, hread]

end

/-! ## Values -/

theorem itemChars_eq : ∀ js : List Json, itemChars js = [','].intercalate (js.map chars)
  | [] => by rw [itemChars]; rfl
  | [j] => by rw [itemChars]; simp
  | j :: k :: js => by
    rw [itemChars, itemChars_eq (k :: js)]
    simp [List.intercalate_cons_cons]

def fieldText (f : String × Json) : List Char :=
  quoted f.1 ++ ':' :: chars f.2

theorem fieldChars_eq : ∀ fs : List (String × Json), fieldChars fs = [','].intercalate (fs.map fieldText)
  | [] => by rw [fieldChars]; rfl
  | [(k, j)] => by rw [fieldChars]; simp [fieldText]
  | (k, j) :: f :: fs => by
    rw [fieldChars, fieldChars_eq (f :: fs)]
    simp [fieldText, List.intercalate_cons_cons]

theorem length_le_of_begins {α : Type} {write : α → List Char} : ∀ {xs : List α},
    (∀ x ∈ xs, ∃ c cs, write x = c :: cs) → xs.length ≤ ([','].intercalate (xs.map write)).length
  | [], _ => Nat.zero_le _
  | [x], h => by
    obtain ⟨c, cs, hcs⟩ := h x (by simp)
    simp [hcs]
  | x :: y :: xs, h => by
    have ih : (y :: xs).length ≤ ([','].intercalate ((y :: xs).map write)).length :=
      length_le_of_begins fun z hz => h z (List.mem_cons_of_mem _ hz)
    rw [List.map_cons] at ih
    rw [List.map_cons, List.map_cons, List.intercalate_cons_cons]
    simp only [List.length_append, List.length_cons] at ih ⊢
    omega

theorem length_le_intercalate {α : Type} {write : α → List Char} {n : Nat} : ∀ {xs : List α},
    ([','].intercalate (xs.map write)).length ≤ n → ∀ x ∈ xs, (write x).length ≤ n
  | [x], h, y, hy => by
    obtain rfl := List.mem_singleton.mp hy
    simpa using h
  | x :: y :: xs, h, z, hz => by
    rw [List.map_cons, List.map_cons, List.intercalate_cons_cons, ← List.map_cons] at h
    simp only [List.length_append, List.length_singleton] at h
    rcases List.mem_cons.mp hz with rfl | hz
    · omega
    · exact length_le_intercalate (by omega) z hz

theorem chars_begins (j : Json) :
    ∃ c cs, chars j = c :: cs ∧ c ∉ [' ', '\t', '\n', '\r', ']', '\x7d'] := by
  cases j with
  | null => exact ⟨_, _, by rw [chars], by decide⟩
  | bool b => cases b <;> exact ⟨_, _, by rw [chars], by decide⟩
  | number n =>
    obtain ⟨d, ds, hds, -⟩ := Toml.exists_decimalDigits_eq n
    have hd : d < 10 := Toml.lt_of_mem_decimalDigits n d (by rw [hds]; simp)
    refine ⟨Toml.digitChar d, ds.map Toml.digitChar, by rw [chars, Toml.digits_eq, hds]; rfl, ?_⟩
    simp only [List.mem_cons, List.not_mem_nil, or_false, not_or]
    refine ⟨?_, ?_, ?_, ?_, ?_, ?_⟩ <;> exact Toml.digitChar_ne (by decide) hd
  | string s => exact ⟨_, _, by rw [chars]; rfl, by decide⟩
  | array js => exact ⟨_, _, by rw [chars]; rfl, by decide⟩
  | members fs => exact ⟨_, _, by rw [chars]; rfl, by decide⟩

theorem readWithin_scalar (n : Nat) (hc : c ∉ [' ', '\t', '\n', '\r', 'n', 't', 'f', '"', '[', '\x7b'])
    (cs : List Char) : readWithin (n + 1) (c :: cs) = readCount (c :: cs) := by
  simp only [List.mem_cons, List.not_mem_nil, or_false, not_or] at hc
  rw [readWithin, skipBlanks_cons (by simp [hc])]
  simp only
  split
  all_goals simp_all

theorem reads_field {value : Reader Json} {f : String × Json} (h : Reads value chars f.2) :
    Reads (readField value) fieldText f := by
  refine ⟨⟨'"', _, rfl, by decide⟩, fun rest hrest => ?_⟩
  have htext : fieldText f ++ rest =
      '"' :: (f.1.toList.flatMap escape ++ '"' :: ':' :: (chars f.2 ++ rest)) := by
    simp [fieldText, quoted]
  rw [htext, readField, skipBlanks_cons (by decide)]
  simp only [readChars_written, skipBlanks_cons (c := ':') (by decide), h.read rest hrest,
    Option.map_some, String.ofList_toList]

theorem reads_within : ∀ {n : Nat} {j : Json}, (chars j).length ≤ n → Reads (readWithin n) chars j
  | 0, j, h => by
    obtain ⟨c, cs, hcs, -⟩ := chars_begins j
    simp [hcs] at h
  | n + 1, j, h => by
    refine ⟨chars_begins j, fun rest hrest => ?_⟩
    cases j with
    | null => rfl
    | bool b => cases b <;> rfl
    | number k =>
      obtain ⟨d, ds, hds, -⟩ := Toml.exists_decimalDigits_eq k
      have hd : d < 10 := Toml.lt_of_mem_decimalDigits k d (by rw [hds]; simp)
      have hdigits : digits k ++ rest = Toml.digitChar d :: (ds.map Toml.digitChar ++ rest) := by
        rw [Toml.digits_eq, hds]
        rfl
      rw [chars, ← readCount_written k hrest, hdigits, readWithin_scalar]
      simp only [List.mem_cons, List.not_mem_nil, or_false, not_or]
      refine ⟨?_, ?_, ?_, ?_, ?_, ?_, ?_, ?_, ?_, ?_⟩ <;> exact Toml.digitChar_ne (by decide) hd
    | string s =>
      rw [chars, quoted_append, readWithin, skipBlanks_cons (by decide)]
      simp only [readChars_written, Option.map_some, String.ofList_toList]
    | array js =>
      rw [chars, itemChars_eq] at h ⊢
      simp only [List.length_append, List.length_cons, List.length_nil] at h
      -- an item is shorter than the array, so a reader one level less deep reads it
      have hitems : ∀ k ∈ js, Reads (readWithin n) chars k := fun k hk =>
        reads_within (length_le_intercalate (by omega) k hk)
      have hcount : js.length ≤ ([','].intercalate (js.map chars)).length := length_le_of_begins fun k _ =>
        (chars_begins k).imp fun _ => Exists.imp fun _ => And.left
      have hread := readItems_written (Or.inl rfl) rest n hitems (by omega)
      rw [List.append_assoc, List.cons_append, List.singleton_append, readWithin,
        skipBlanks_cons (by decide)]
      simp only [hread, Option.map_some]
    | members fs =>
      rw [chars, fieldChars_eq] at h ⊢
      simp only [List.length_append, List.length_cons, List.length_nil] at h
      have hfields : ∀ f ∈ fs, Reads (readField (readWithin n)) fieldText f := fun f hf => by
        have hlen : (fieldText f).length ≤ n := length_le_intercalate (by omega) f hf
        refine reads_field (reads_within ?_)
        simp only [fieldText, List.length_append, List.length_cons] at hlen
        omega
      have hcount : fs.length ≤ ([','].intercalate (fs.map fieldText)).length :=
        length_le_of_begins fun f _ => ⟨'"', _, rfl⟩
      have hread := readItems_written (Or.inr rfl) rest n hfields (by omega)
      rw [List.append_assoc, List.cons_append, List.singleton_append, readWithin,
        skipBlanks_cons (by decide)]
      simp only [hread, Option.map_some]

/-- A value that was written is read back. -/
theorem read?_text (j : Json) : read? j.text = some j := by
  have hread := (reads_within (Nat.le_succ (chars j).length)).read []
    (fun _ hc => by cases hc)
  rw [List.append_nil] at hread
  unfold read? text
  rw [String.toList_ofList]
  simp only [hread]
  rfl

/-! ## One line -/

theorem not_lt_space_of_all {l : List Char} (hl : l.all (fun d => decide (0x20 ≤ d.toNat)) = true)
    (h : c ∈ l) : ¬ c.toNat < 0x20 := by
  have hle := of_decide_eq_true (List.all_eq_true.mp hl c h)
  omega

theorem not_lt_space_of_mem_escape {d : Char} (h : d ∈ escape c) : ¬ d.toNat < 0x20 := by
  have hdigit : ∀ n < 16, ¬ (Text.hexDigit n).toNat < 0x20 := by decide
  unfold escape at h
  split at h
  · exact not_lt_space_of_all (by decide) h
  split at h
  · exact not_lt_space_of_all (by decide) h
  split at h
  · exact not_lt_space_of_all (by decide) h
  split at h
  · exact not_lt_space_of_all (by decide) h
  split at h
  · exact not_lt_space_of_all (by decide) h
  split at h
  · exact not_lt_space_of_all (by decide) h
  split at h
  · exact not_lt_space_of_all (by decide) h
  split at h
  · simp only [List.mem_cons, List.not_mem_nil, or_false] at h
    rcases h with rfl | rfl | rfl | rfl | rfl | rfl
    · decide
    · decide
    · decide
    · decide
    · exact hdigit _ (by omega)
    · exact hdigit _ (by omega)
  · obtain rfl := List.mem_singleton.mp h
    assumption

theorem not_lt_space_of_mem_quoted {s : String} (h : c ∈ quoted s) : ¬ c.toNat < 0x20 := by
  simp only [quoted, List.cons_append, List.mem_cons, List.mem_append, List.mem_flatMap,
    List.not_mem_nil, or_false] at h
  rcases h with rfl | ⟨d, -, h⟩ | rfl
  · decide
  · exact not_lt_space_of_mem_escape h
  · decide

mutual

/-- A value is written on one line. -/
theorem not_lt_space_of_mem_chars : ∀ {j : Json}, c ∈ chars j → ¬ c.toNat < 0x20
  | .null, h => not_lt_space_of_all (by decide) h
  | .bool true, h => not_lt_space_of_all (by decide) h
  | .bool false, h => not_lt_space_of_all (by decide) h
  | .number n, h => by
    rw [chars, Toml.digits_eq] at h
    obtain ⟨d, hd, rfl⟩ := List.mem_map.mp h
    have hdigit : ∀ d < 10, ¬ (Toml.digitChar d).toNat < 0x20 := by decide
    exact hdigit d (Toml.lt_of_mem_decimalDigits n d hd)
  | .string s, h => by
    rw [chars] at h
    exact not_lt_space_of_mem_quoted h
  | .array js, h => by
    simp only [chars, List.cons_append, List.mem_cons, List.mem_append, List.not_mem_nil,
      or_false] at h
    rcases h with rfl | h | rfl
    · decide
    · exact not_lt_space_of_mem_itemChars h
    · decide
  | .members fs, h => by
    simp only [chars, List.cons_append, List.mem_cons, List.mem_append, List.not_mem_nil,
      or_false] at h
    rcases h with rfl | h | rfl
    · decide
    · exact not_lt_space_of_mem_fieldChars h
    · decide

theorem not_lt_space_of_mem_itemChars : ∀ {js : List Json}, c ∈ itemChars js → ¬ c.toNat < 0x20
  | [], h => by simp [itemChars] at h
  | [j], h => by
    rw [itemChars] at h
    exact not_lt_space_of_mem_chars h
  | j :: k :: js, h => by
    simp only [itemChars, List.mem_append, List.mem_cons] at h
    rcases h with h | rfl | h
    · exact not_lt_space_of_mem_chars h
    · decide
    · exact not_lt_space_of_mem_itemChars h

theorem not_lt_space_of_mem_fieldChars : ∀ {fs : List (String × Json)}, c ∈ fieldChars fs →
    ¬ c.toNat < 0x20
  | [], h => by simp [fieldChars] at h
  | [(k, j)], h => by
    simp only [fieldChars, List.mem_append, List.mem_cons] at h
    rcases h with h | rfl | h
    · exact not_lt_space_of_mem_quoted h
    · decide
    · exact not_lt_space_of_mem_chars h
  | (k, j) :: f :: fs, h => by
    simp only [fieldChars, List.append_assoc, List.cons_append, List.mem_append, List.mem_cons] at h
    rcases h with h | rfl | h | rfl | h
    · exact not_lt_space_of_mem_quoted h
    · decide
    · exact not_lt_space_of_mem_chars h
    · decide
    · exact not_lt_space_of_mem_fieldChars h

end

end OnDemand.Json
