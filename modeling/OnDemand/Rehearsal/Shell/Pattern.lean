/-!
# Patterns

What a shell compares texts and file names with: a question mark stands for any character, a star
for any text, and brackets for one of several characters. A quoted character stands for itself.
-/

namespace OnDemand.Rehearsal.Shell

/-- A part of a pattern. -/
inductive Glob where
  | char (c : Char)
  | any
  | star
  | oneOf (negated : Bool) (ranges : List (Char × Char))
deriving DecidableEq

namespace Glob

/-- The ranges in brackets, up to the closing one, and what follows it. -/
def readRanges : Nat → List (Char × Bool) → Option (List (Char × Char) × List (Char × Bool))
  | 0, _ => none
  | _, [] => none
  | n + 1, (a, quoted) :: cs =>
    match cs with
    | ('-', false) :: (']', false) :: _ =>
      (readRanges n cs).map fun (rs, rest) => ((a, a) :: rs, rest)
    | ('-', false) :: (b, _) :: more =>
      if a = ']' && !quoted then some ([], cs)
      else (readRanges n more).map fun (rs, rest) => ((a, b) :: rs, rest)
    | _ =>
      if a = ']' && !quoted then some ([], cs)
      else (readRanges n cs).map fun (rs, rest) => ((a, a) :: rs, rest)

/-- The brackets after an opening one. A closing bracket right at the start stands for itself. -/
def readBrackets (cs : List (Char × Bool)) : Option (Glob × List (Char × Bool)) :=
  let (negated, cs) := match cs with
    | ('!', false) :: more => (true, more)
    | ('^', false) :: more => (true, more)
    | more => (false, more)
  let read : Option (List (Char × Char) × List (Char × Bool)) := match cs with
    | (']', false) :: more =>
      (readRanges cs.length more).map fun (rs, rest) => ((']', ']') :: rs, rest)
    | more => readRanges (cs.length + 1) more
  read.map fun (rs, rest) => (.oneOf negated rs, rest)

/-- The pattern in a text whose characters are quoted or not. The number bounds its length. -/
def readWithin : Nat → List (Char × Bool) → List Glob
  | 0, _ => []
  | _, [] => []
  | n + 1, (c, quoted) :: cs =>
    if quoted then .char c :: readWithin n cs
    else if c = '*' then .star :: readWithin n cs
    else if c = '?' then .any :: readWithin n cs
    else if c = '[' then
      match readBrackets cs with
      | some (g, rest) => g :: readWithin n rest
      | none => .char c :: readWithin n cs
    else .char c :: readWithin n cs

def read (cs : List (Char × Bool)) : List Glob :=
  readWithin cs.length cs

def fits (c : Char) : Glob → Bool
  | char d => c = d
  | any => true
  | star => false
  | oneOf negated ranges => negated != ranges.any fun r => r.1 ≤ c && c ≤ r.2

/-- Whether some end of a text satisfies a condition, the longest first. -/
def someTail (p : List Char → Bool) : List Char → Bool
  | [] => p []
  | c :: cs => p (c :: cs) || someTail p cs

def matches? : List Glob → List Char → Bool
  | [], cs => cs.isEmpty
  | .star :: gs, cs => someTail (matches? gs) cs
  | _ :: _, [] => false
  | g :: gs, c :: cs => fits c g && matches? gs cs

/-- A text without the shortest or longest beginning that a pattern matches. -/
def cutFront (gs : List Glob) (longest : Bool) (cs : List Char) : List Char :=
  let lengths := List.range (cs.length + 1)
  let lengths := if longest then lengths.reverse else lengths
  match lengths.find? fun k => matches? gs (cs.take k) with
  | some k => cs.drop k
  | none => cs

/-- A text without the shortest or longest end that a pattern matches. -/
def cutBack (gs : List Glob) (longest : Bool) (cs : List Char) : List Char :=
  let lengths := List.range (cs.length + 1)
  let lengths := if longest then lengths else lengths.reverse
  match lengths.find? fun k => matches? gs (cs.drop k) with
  | some k => cs.take k
  | none => cs

end Glob

end OnDemand.Rehearsal.Shell
