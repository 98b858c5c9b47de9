import OnDemand.Toml.Layout

/-!
# Dates and times of TOML

A date, a time of day, or both with a `T` or a space between and an optional offset. The day must
exist in its month; a minute may have a leap second.
-/

namespace OnDemand.Toml

/-- A number of exactly so many decimal digits, after a number already read. -/
def readDecimal : Nat → Nat → Reader Nat
  | 0, n, cs => some (n, cs)
  | _ + 1, _, [] => none
  | k + 1, n, c :: cs =>
    if c.isDigit then readDecimal k (n * 10 + (c.toNat - 48)) cs else none

/-- The text after a number of two digits within bounds. -/
def afterTwo? (least most : Nat) (cs : List Char) : Option (List Char) :=
  (readDecimal 2 0 cs).bind fun (n, rest) => if least ≤ n ∧ n ≤ most then some rest else none

/-- The text after a character. -/
def afterChar? (c : Char) : List Char → Option (List Char)
  | [] => none
  | d :: cs => if d = c then some cs else none

def isLeapYear (year : Nat) : Bool :=
  year % 4 == 0 && (year % 100 != 0 || year % 400 == 0)

def daysInMonth (year month : Nat) : Nat :=
  match month with
  | 2 => if isLeapYear year then 29 else 28
  | 4 => 30
  | 6 => 30
  | 9 => 30
  | 11 => 30
  | _ => 31

/-- The text after a date. -/
def afterDate? (cs : List Char) : Option (List Char) := do
  let (year, cs) ← readDecimal 4 0 cs
  let cs ← afterChar? '-' cs
  let (month, cs) ← readDecimal 2 0 cs
  let cs ← afterChar? '-' cs
  if 1 ≤ month ∧ month ≤ 12 then afterTwo? 1 (daysInMonth year month) cs else none

/-- The text after a fraction of a second, if there is one. -/
def afterSubsecond : List Char → List Char
  | '.' :: c :: cs => if c.isDigit then cs.dropWhile Char.isDigit else '.' :: c :: cs
  | cs => cs

/-- The text after a time of day. -/
def afterTime? (cs : List Char) : Option (List Char) := do
  let cs ← afterTwo? 0 23 cs
  let cs ← afterChar? ':' cs
  let cs ← afterTwo? 0 59 cs
  let cs ← afterChar? ':' cs
  let cs ← afterTwo? 0 60 cs
  return afterSubsecond cs

/-- The text after hours and minutes. -/
def afterHours? (cs : List Char) : Option (List Char) := do
  let cs ← afterTwo? 0 23 cs
  let cs ← afterChar? ':' cs
  afterTwo? 0 59 cs

/-- The text after an offset, if there is one. -/
def afterOffset : List Char → List Char
  | 'Z' :: cs => cs
  | 'z' :: cs => cs
  | '+' :: cs => (afterHours? cs).getD ('+' :: cs)
  | '-' :: cs => (afterHours? cs).getD ('-' :: cs)
  | cs => cs

/-- The text after the time that follows a date, if one does. -/
def afterDateTime : List Char → List Char
  | [] => []
  | c :: cs =>
    if c = 'T' ∨ c = 't' ∨ c = ' ' then
      match afterTime? cs with
      | some rest => afterOffset rest
      | none => c :: cs
    else c :: cs

/-- The text after a date, a time, or both. -/
def afterMoment? (cs : List Char) : Option (List Char) :=
  match afterDate? cs with
  | some rest => some (afterDateTime rest)
  | none => afterTime? cs

end OnDemand.Toml
