import OnDemand.Rehearsal.Shell.State

/-!
# Conditions

What `test` and `[` decide about texts, numbers and files.
-/

namespace OnDemand.Rehearsal.Shell.Test

/-- Why a condition could not be decided. -/
structure Refusal where
  message : String

/-- A whole number with blanks around it and a sign before it or not. -/
def integer? (s : String) : Option Int :=
  let cs := (s.toList.dropWhile Char.isWhitespace).reverse.dropWhile Char.isWhitespace
  let (negative, ds) := match cs.reverse with
    | '-' :: more => (true, more)
    | '+' :: more => (false, more)
    | more => (false, more)
  if ds.isEmpty || !ds.all Char.isDigit then none
  else
    let n : Int := ds.foldl (fun n d => n * 10 + (d.toNat - 48)) (0 : Nat)
    some (if negative then -n else n)

def integer (s : String) : Except Refusal Int :=
  match integer? s with
  | some n => .ok n
  | none => .error ⟨"Illegal number: " ++ s⟩

/-- The condition of an operator with one operand. -/
def unary? (s : State) (op arg : String) : Option Bool :=
  let p := State.path arg
  match op with
  | "-n" => some (arg ≠ "")
  | "-z" => some (arg = "")
  | "-e" => some (s.tree.pathExists s.cwd p)
  | "-f" => some (s.tree.isFile s.cwd p)
  | "-d" => some (s.tree.isDir s.cwd p)
  | "-r" => some (s.tree.pathExists s.cwd p)
  | "-w" => some (s.tree.pathExists s.cwd p)
  | "-x" => some (s.tree.isDir s.cwd p)
  | "-s" =>
    some (match s.tree.look s.cwd p with
      | .ok (_, .file bytes) => !bytes.isEmpty
      | .ok (_, .dir) => true
      | .error _ => false)
  | "-t" => some false
  | "-h" => some false
  | "-L" => some false
  | "-p" => some false
  | _ => none

def compare (a b : String) (p : Int → Int → Bool) : Except Refusal Bool := do
  return p (← integer a) (← integer b)

/-- The condition of an operator with two operands. -/
def binary? (a op b : String) : Option (Except Refusal Bool) :=
  match op with
  | "=" => some (.ok (a = b))
  | "==" => some (.ok (a = b))
  | "!=" => some (.ok (a ≠ b))
  | "<" => some (.ok (decide (a < b)))
  | ">" => some (.ok (decide (b < a)))
  | "-eq" => some (compare a b fun x y => x = y)
  | "-ne" => some (compare a b fun x y => x ≠ y)
  | "-gt" => some (compare a b fun x y => y < x)
  | "-ge" => some (compare a b fun x y => y ≤ x)
  | "-lt" => some (compare a b fun x y => x < y)
  | "-le" => some (compare a b fun x y => x ≤ y)
  | _ => none

mutual

def primary (s : State) : Nat → List String → Except Refusal (Bool × List String)
  | 0, _ => .error ⟨"too long"⟩
  | _, [] => .error ⟨"argument expected"⟩
  | n + 1, a :: rest =>
    let single : Except Refusal (Bool × List String) :=
      match a, rest with
      | "!", _ :: _ => (primary s n rest).map fun (b, rest) => (!b, rest)
      | "(", _ :: _ =>
        match disjunction s n rest with
        | .ok (b, ")" :: rest) => .ok (b, rest)
        | .ok _ => .error ⟨"closing paren expected"⟩
        | .error e => .error e
      | a, x :: rest' =>
        match unary? s a x with
        | some b => .ok (b, rest')
        | none => .ok (a ≠ "", x :: rest')
      | a, [] => .ok (a ≠ "", [])
    match rest with
    | op :: b :: rest' =>
      match binary? a op b with
      | some r => r.map fun r => (r, rest')
      | none => single
    | _ => single

def conjunction (s : State) : Nat → List String → Except Refusal (Bool × List String)
  | 0, _ => .error ⟨"too long"⟩
  | n + 1, args =>
    match primary s n args with
    | .ok (a, "-a" :: rest) => (conjunction s n rest).map fun (b, rest) => (a && b, rest)
    | r => r

def disjunction (s : State) : Nat → List String → Except Refusal (Bool × List String)
  | 0, _ => .error ⟨"too long"⟩
  | n + 1, args =>
    match conjunction s n args with
    | .ok (a, "-o" :: rest) => (disjunction s n rest).map fun (b, rest) => (a || b, rest)
    | r => r

end

/-- Decides a condition. -/
def decide? (s : State) (args : List String) : Except Refusal Bool :=
  match args with
  | [] => .ok false
  | args =>
    match disjunction s (3 * args.length + 3) args with
    | .ok (b, []) => .ok b
    | .ok (_, a :: _) =>
      .error ⟨(if args.length = 2 then args.headD "" else a) ++ ": unexpected operator"⟩
    | .error e => .error e

def run (command : String) (s : State) (args : List String) : State × Nat :=
  let closed := command ≠ "[" || args.getLast? = some "]"
  if !closed then s.refuse command "missing ]"
  else match decide? s (if command = "[" then args.dropLast else args) with
    | .ok b => (s, if b then 0 else 1)
    | .error e => s.refuse command e.message

end OnDemand.Rehearsal.Shell.Test
