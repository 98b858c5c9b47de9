import OnDemand.Rehearsal.Shell.Reader

/-!
# Arithmetic of the shell

Whole numbers with the operators of C, without assignments.
-/

namespace OnDemand.Rehearsal.Shell.Arithmetic

inductive Token where
  | number (n : Int)
  | operator (s : String)
deriving DecidableEq

/-- The operators, longer ones before those they begin with. -/
def operators : List String :=
  ["<<", ">>", "<=", ">=", "==", "!=", "&&", "||", "+", "-", "*", "/", "%", "<", ">", "!", "~", "&",
    "^", "|", "(", ")"]

def numberOf (cs : List Char) : Int :=
  match cs with
  | '0' :: 'x' :: ds => ds.foldl (fun n c => n * 16 + (if c.isDigit then c.toNat - 48
      else if 'a' ≤ c then c.toNat - 87 else c.toNat - 55 : Nat)) (0 : Int)
  | '0' :: ds => ds.foldl (fun n c => n * 8 + ((c.toNat - 48 : Nat) : Int)) (0 : Int)
  | ds => ds.foldl (fun n c => n * 10 + ((c.toNat - 48 : Nat) : Int)) (0 : Int)

/-- The value of the text of a variable. -/
def valueOf (s : String) : Int :=
  match s.toList with
  | '-' :: cs => -numberOf cs
  | '+' :: cs => numberOf cs
  | cs => numberOf cs

def tokens (vars : String → String) : Nat → List Char → Option (List Token)
  | _, [] => some []
  | 0, _ => none
  | n + 1, c :: cs =>
    if c ∈ [' ', '\t', '\n'] then tokens vars n cs
    else if c.isDigit then
      let ds := (c :: cs).takeWhile Char.isAlphanum
      (tokens vars n ((c :: cs).drop ds.length)).map (.number (numberOf ds) :: ·)
    else if isNameStart c then
      let name := (c :: cs).takeWhile isNameChar
      (tokens vars n ((c :: cs).drop name.length)).map
        (.number (valueOf (vars (String.ofList name))) :: ·)
    else
      match operators.find? fun o => o.toList.isPrefixOf (c :: cs) with
      | some o => (tokens vars n ((c :: cs).drop o.length)).map (.operator o :: ·)
      | none => none

def strength : String → Option Nat
  | "||" => some 1
  | "&&" => some 2
  | "|" => some 3
  | "^" => some 4
  | "&" => some 5
  | "==" => some 6
  | "!=" => some 6
  | "<" => some 7
  | "<=" => some 7
  | ">" => some 7
  | ">=" => some 7
  | "<<" => some 8
  | ">>" => some 8
  | "+" => some 9
  | "-" => some 9
  | "*" => some 10
  | "/" => some 10
  | "%" => some 10
  | _ => none

def ofBool (b : Bool) : Int := if b then 1 else 0

/-- The result of an operator; division by zero has none. -/
def apply (o : String) (a b : Int) : Option Int :=
  match o with
  | "||" => some (ofBool (a ≠ 0 || b ≠ 0))
  | "&&" => some (ofBool (a ≠ 0 && b ≠ 0))
  | "|" => some ((BitVec.ofInt 64 a ||| BitVec.ofInt 64 b).toInt)
  | "^" => some ((BitVec.ofInt 64 a ^^^ BitVec.ofInt 64 b).toInt)
  | "&" => some ((BitVec.ofInt 64 a &&& BitVec.ofInt 64 b).toInt)
  | "==" => some (ofBool (a = b))
  | "!=" => some (ofBool (a ≠ b))
  | "<" => some (ofBool (a < b))
  | "<=" => some (ofBool (a ≤ b))
  | ">" => some (ofBool (b < a))
  | ">=" => some (ofBool (b ≤ a))
  | "<<" => some (a * Int.pow 2 b.toNat)
  | ">>" => some (a / Int.pow 2 b.toNat)
  | "+" => some (a + b)
  | "-" => some (a - b)
  | "*" => some (a * b)
  | "/" => if b = 0 then none else some (a.tdiv b)
  | "%" => if b = 0 then none else some (a.tmod b)
  | _ => none

mutual

def operand : Nat → List Token → Option (Int × List Token)
  | 0, _ => none
  | n + 1, ts =>
    match ts with
    | .number k :: rest => some (k, rest)
    | .operator "-" :: rest => (operand n rest).map fun (k, rest) => (-k, rest)
    | .operator "+" :: rest => operand n rest
    | .operator "!" :: rest => (operand n rest).map fun (k, rest) => (ofBool (k = 0), rest)
    | .operator "~" :: rest => (operand n rest).map fun (k, rest) => (-k - 1, rest)
    | .operator "(" :: rest =>
      match expression n 0 rest with
      | some (k, .operator ")" :: rest) => some (k, rest)
      | _ => none
    | _ => none

/-- An expression of operators at least so strong. -/
def expression : Nat → Nat → List Token → Option (Int × List Token)
  | 0, _, _ => none
  | n + 1, least, ts =>
    match operand n ts with
    | some (a, rest) => continued n least a rest
    | none => none

def continued : Nat → Nat → Int → List Token → Option (Int × List Token)
  | 0, _, _, _ => none
  | n + 1, least, a, ts =>
    match ts with
    | .operator o :: rest =>
      match strength o with
      | some k =>
        if k < least then some (a, ts)
        else match expression n (k + 1) rest with
          | some (b, rest) =>
            match apply o a b with
            | some c => continued n least c rest
            | none => none
          | none => none
      | none => some (a, ts)
    | _ => some (a, ts)

end

/-- The value of an expression; an empty one is zero. -/
def evaluate (vars : String → String) (text : List Char) : Option Int :=
  match tokens vars (text.length + 1) text with
  | none => none
  | some [] => some 0
  | some ts =>
    match expression (2 * ts.length + 2) 0 ts with
    | some (k, []) => some k
    | _ => none

end OnDemand.Rehearsal.Shell.Arithmetic
