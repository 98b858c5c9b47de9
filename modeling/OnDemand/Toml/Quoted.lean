import OnDemand.Toml.Layout

/-!
# Quoted strings of TOML

Four kinds: on one line or over several, each with escapes (double quotes) or without (single
quotes). The readers here begin after the opening quotes. In a string over several lines a line end
is always a newline, one or two quotes stand for themselves, also before the closing quotes, and
with escapes a backslash at the end of a line takes away the blanks and line ends after it.
-/

namespace OnDemand.Toml

def hexValue? (c : Char) : Option Nat :=
  if '0' ≤ c && c ≤ '9' then some (c.toNat - 48)
  else if 'a' ≤ c && c ≤ 'f' then some (c.toNat - 87)
  else if 'A' ≤ c && c ≤ 'F' then some (c.toNat - 55)
  else none

/-- A number of exactly so many hexadecimal digits, after a number already read. -/
def readHex : Nat → Nat → Reader Nat
  | 0, n, cs => some (n, cs)
  | _ + 1, _, [] => none
  | k + 1, n, c :: cs => (hexValue? c).bind fun d => readHex k (n * 16 + d) cs

/-- A character by its number. -/
def readCodePoint (digits : Nat) (cs : List Char) : Option (Char × List Char) :=
  (readHex digits 0 cs).bind fun (n, rest) =>
    if n.isValidChar then some (Char.ofNat n, rest) else none

/-- What follows the backslash of an escape. -/
def readEscape : Reader Char
  | 'b' :: cs => some ('\x08', cs)
  | 't' :: cs => some ('\t', cs)
  | 'n' :: cs => some ('\n', cs)
  | 'f' :: cs => some ('\x0c', cs)
  | 'r' :: cs => some ('\r', cs)
  | '"' :: cs => some ('"', cs)
  | '\\' :: cs => some ('\\', cs)
  | 'u' :: cs => readCodePoint 4 cs
  | 'U' :: cs => readCodePoint 8 cs
  | _ => none

/-- Skips spaces and line ends. -/
def skipBlankLines : List Char → List Char
  | [] => []
  | ' ' :: cs => skipBlankLines cs
  | '\t' :: cs => skipBlankLines cs
  | '\n' :: cs => skipBlankLines cs
  | '\r' :: '\n' :: cs => skipBlankLines cs
  | cs => cs

/-- Puts characters in front of those read. -/
def before (front : List Char) : Option (List Char × List Char) → Option (List Char × List Char)
  | none => none
  | some (cs, rest) => some (front ++ cs, rest)

/-! ## A reader leaves less than it got -/

theorem readHex_length : ∀ (k n : Nat) (cs : List Char) (m : Nat) (rest : List Char),
    readHex k n cs = some (m, rest) → rest.length ≤ cs.length
  | 0, n, cs, m, rest, h => by
    simp only [readHex, Option.some.injEq, Prod.mk.injEq] at h
    simp [h.2]
  | k + 1, n, [], m, rest, h => by simp [readHex] at h
  | k + 1, n, c :: cs, m, rest, h => by
    simp only [readHex, Option.bind_eq_some_iff] at h
    obtain ⟨d, _, h⟩ := h
    have := readHex_length k _ cs m rest h
    simp only [List.length_cons]
    omega

theorem readCodePoint_length {k : Nat} {cs rest : List Char} {c : Char}
    (h : readCodePoint k cs = some (c, rest)) : rest.length ≤ cs.length := by
  simp only [readCodePoint, Option.bind_eq_some_iff] at h
  obtain ⟨⟨n, r⟩, hn, h⟩ := h
  split at h
  · simp only [Option.some.injEq, Prod.mk.injEq] at h
    rw [← h.2]
    exact readHex_length k 0 cs n r hn
  · cases h

theorem readEscape_length {cs rest : List Char} {c : Char}
    (h : readEscape cs = some (c, rest)) : rest.length < cs.length := by
  unfold readEscape at h
  split at h
  case h_8 => exact Nat.lt_succ_of_le (readCodePoint_length h)
  case h_9 => exact Nat.lt_succ_of_le (readCodePoint_length h)
  case h_10 => cases h
  all_goals
    simp only [Option.some.injEq, Prod.mk.injEq] at h
    simp [← h.2]

theorem skipBlankLines_length (cs : List Char) : (skipBlankLines cs).length ≤ cs.length := by
  fun_induction skipBlankLines cs with
  | case1 => simp
  | case2 cs ih => simp only [List.length_cons]; omega
  | case3 cs ih => simp only [List.length_cons]; omega
  | case4 cs ih => simp only [List.length_cons]; omega
  | case5 cs ih => simp only [List.length_cons]; omega
  | case6 => exact Nat.le_refl _

/-! ## Strings with escapes -/

/-- A string on one line, up to the closing quote. -/
def readBasic : List Char → Option (List Char × List Char)
  | [] => none
  | '"' :: cs => some ([], cs)
  | '\\' :: cs =>
    match h : readEscape cs with
    | some (c, rest) =>
      have := readEscape_length h
      before [c] (readBasic rest)
    | none => none
  | c :: cs => if isPlain c then before [c] (readBasic cs) else none
termination_by cs => cs.length
decreasing_by all_goals simp only [List.length_cons]; omega

theorem readBasic_escape {cs rest : List Char} {c : Char} (h : readEscape cs = some (c, rest)) :
    readBasic ('\\' :: cs) = before [c] (readBasic rest) := by
  rw [readBasic]
  split
  · rename_i h'
    rw [h] at h'
    cases h'
    rfl
  · rename_i h'
    rw [h] at h'
    cases h'

/-- A string over several lines, up to the closing quotes. -/
def readBlock : List Char → Option (List Char × List Char)
  | [] => none
  | '"' :: '"' :: '"' :: '"' :: '"' :: cs => some (['"', '"'], cs)
  | '"' :: '"' :: '"' :: '"' :: cs => some (['"'], cs)
  | '"' :: '"' :: '"' :: cs => some ([], cs)
  | '\n' :: cs => before ['\n'] (readBlock cs)
  | '\r' :: '\n' :: cs => before ['\n'] (readBlock cs)
  | '\\' :: cs =>
    if (afterNewline? (skipSpace cs)).isSome then
      have := skipBlankLines_length cs
      readBlock (skipBlankLines cs)
    else match h : readEscape cs with
      | some (c, rest) =>
        have := readEscape_length h
        before [c] (readBlock rest)
      | none => none
  | c :: cs => if isPlain c then before [c] (readBlock cs) else none
termination_by cs => cs.length
decreasing_by all_goals simp only [List.length_cons]; omega

theorem readBlock_newline (cs : List Char) : readBlock ('\n' :: cs) = before ['\n'] (readBlock cs) := by
  rw [readBlock]

/-! ## Strings without escapes -/

/-- A string on one line, up to the closing quote. -/
def readLiteral : List Char → Option (List Char × List Char)
  | [] => none
  | '\'' :: cs => some ([], cs)
  | c :: cs => if isPlain c then before [c] (readLiteral cs) else none

/-- A string over several lines, up to the closing quotes. -/
def readLiteralBlock : List Char → Option (List Char × List Char)
  | [] => none
  | '\'' :: '\'' :: '\'' :: '\'' :: '\'' :: cs => some (['\'', '\''], cs)
  | '\'' :: '\'' :: '\'' :: '\'' :: cs => some (['\''], cs)
  | '\'' :: '\'' :: '\'' :: cs => some ([], cs)
  | '\n' :: cs => before ['\n'] (readLiteralBlock cs)
  | '\r' :: '\n' :: cs => before ['\n'] (readLiteralBlock cs)
  | c :: cs => if isPlain c then before [c] (readLiteralBlock cs) else none

theorem readLiteralBlock_close_two (rest : List Char) :
    readLiteralBlock ('\'' :: '\'' :: '\'' :: '\'' :: '\'' :: rest) = some (['\'', '\''], rest) := by
  rw [readLiteralBlock]

/-! ## Any kind -/

/-- Skips the line end right after opening quotes. -/
def skipFirstNewline (cs : List Char) : List Char :=
  (afterNewline? cs).getD cs

def asString : Option (List Char × List Char) → Option (String × List Char)
  | none => none
  | some (cs, rest) => some (String.ofList cs, rest)

/-- A string on one line, with its quotes. -/
def readLineString : Reader String
  | '"' :: cs => asString (readBasic cs)
  | '\'' :: cs => asString (readLiteral cs)
  | _ => none

/-- A string of any kind, with its quotes. -/
def readString : Reader String
  | '"' :: '"' :: '"' :: cs => asString (readBlock (skipFirstNewline cs))
  | '\'' :: '\'' :: '\'' :: cs => asString (readLiteralBlock (skipFirstNewline cs))
  | cs => readLineString cs

end OnDemand.Toml
