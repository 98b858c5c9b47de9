import OnDemand.Toml.Quoted
import OnDemand.Toml.Value

/-!
# Numbers of TOML

Integers of 64 bits in four bases, and floating-point numbers. An underscore may stand between two
digits. A decimal number has no superfluous leading zero. A floating-point number is refused if it
is so large that it would round to positive infinity.
-/

namespace OnDemand.Toml

/-- The value of a digit in a base of at most sixteen. -/
def digitValue? (base : Nat) (c : Char) : Option Nat :=
  (hexValue? c).filter (· < base)

/-- Further digits, each after an underscore or not. -/
def readMoreDigits (base : Nat) : Reader (List Nat)
  | [] => some ([], [])
  | '_' :: cs =>
    match cs with
    | [] => none
    | c :: cs =>
      match digitValue? base c, readMoreDigits base cs with
      | some d, some (ds, rest) => some (d :: ds, rest)
      | _, _ => none
  | c :: cs =>
    match digitValue? base c with
    | none => some ([], c :: cs)
    | some d => (readMoreDigits base cs).map fun (ds, rest) => (d :: ds, rest)

/-- One or more digits. -/
def readDigits (base : Nat) : Reader (List Nat)
  | [] => none
  | c :: cs =>
    match digitValue? base c with
    | none => none
    | some d => (readMoreDigits base cs).map fun (ds, rest) => (d :: ds, rest)

def ofDigits (base : Nat) (ds : List Nat) : Nat :=
  ds.foldl (fun n d => n * base + d) 0

/-- Whether a sign is negative; no sign is positive. -/
def readSign : List Char → Bool × List Char
  | '-' :: cs => (true, cs)
  | '+' :: cs => (false, cs)
  | cs => (false, cs)

/-- The digits of a decimal number: a zero alone, or digits of which the first is none. -/
def readWhole : Reader (List Nat)
  | '0' :: cs => some ([0], cs)
  | cs => readDigits 10 cs

/-! ## Integers -/

def minInteger : Int := -Int.ofNat (1 <<< 63)

def maxInteger : Int := Int.ofNat (1 <<< 63) - 1

def integerInRange (n : Int) (rest : List Char) : Option (Int × List Char) :=
  if minInteger ≤ n ∧ n ≤ maxInteger then some (n, rest) else none

def readInteger : Reader Int
  | '0' :: 'x' :: cs => (readDigits 16 cs).bind fun (ds, rest) => integerInRange (ofDigits 16 ds) rest
  | '0' :: 'o' :: cs => (readDigits 8 cs).bind fun (ds, rest) => integerInRange (ofDigits 8 ds) rest
  | '0' :: 'b' :: cs => (readDigits 2 cs).bind fun (ds, rest) => integerInRange (ofDigits 2 ds) rest
  | cs =>
    let (negative, cs) := readSign cs
    (readWhole cs).bind fun (ds, rest) =>
      let n : Int := ofDigits 10 ds
      integerInRange (if negative then -n else n) rest

/-! ## Floating-point numbers -/

/-- The least number that rounds to infinity: half a unit above the largest finite double. -/
def infinityThreshold : Nat := 1 <<< 1024 - 1 <<< 970

/-- Whether digits with a decimal exponent mean a number that rounds to infinity. -/
def roundsToInfinity (digits : List Nat) (exponent : Int) : Bool :=
  let mantissa := digits.dropWhile (· == 0)
  let size : Int := mantissa.length + exponent
  if mantissa.isEmpty then false
  else if size < 309 then false
  else if 310 < size then true
  else
    let n := ofDigits 10 mantissa
    if 0 ≤ exponent then infinityThreshold ≤ n * Nat.pow 10 exponent.toNat
    else infinityThreshold * Nat.pow 10 (-exponent).toNat ≤ n

/-- The exponent after its letter. -/
def readExponent (cs : List Char) : Option (Int × List Char) :=
  let (negative, cs) := readSign cs
  (readDigits 10 cs).map fun (ds, rest) =>
    let n : Int := ofDigits 10 ds
    (if negative then -n else n, rest)

/-- An exponent with its letter, or none. -/
def readOptionalExponent : List Char → Option (Int × List Char)
  | 'e' :: cs => readExponent cs
  | 'E' :: cs => readExponent cs
  | cs => some (0, cs)

/-- What follows the whole part of a floating-point number: the digits of its fraction, and its
exponent. -/
def readFraction : List Char → Option ((List Nat × Int) × List Char)
  | '.' :: cs =>
    (readDigits 10 cs).bind fun (fraction, cs) =>
      (readOptionalExponent cs).map fun (exponent, rest) => ((fraction, exponent), rest)
  | 'e' :: cs => (readExponent cs).map fun (exponent, rest) => (([], exponent), rest)
  | 'E' :: cs => (readExponent cs).map fun (exponent, rest) => (([], exponent), rest)
  | _ => none

/-- The text after a floating-point number. -/
def afterFloat? (cs : List Char) : Option (List Char) :=
  let (negative, cs) := readSign cs
  match cs with
  | 'i' :: 'n' :: 'f' :: rest => some rest
  | 'n' :: 'a' :: 'n' :: rest => some rest
  | cs =>
    (readWhole cs).bind fun (whole, cs) =>
      (readFraction cs).bind fun ((fraction, exponent), rest) =>
        if !negative && roundsToInfinity (whole ++ fraction) (exponent - fraction.length) then none
        else some rest

end OnDemand.Toml
