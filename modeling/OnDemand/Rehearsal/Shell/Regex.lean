/-!
# Regular expressions

The basic expressions of line editors: characters, a point for any, brackets, a star for any
number of the item before it, and the marks of the start and the end.
-/

namespace OnDemand.Rehearsal.Shell

/-- One position of an expression. -/
inductive RegexItem where
  | char (c : Char)
  | any
  | oneOf (negated : Bool) (ranges : List (Char × Char))
deriving DecidableEq

namespace RegexItem

def fits (c : Char) : RegexItem → Bool
  | char d => c = d
  | any => c ≠ '\n'
  | oneOf negated ranges => negated != ranges.any fun r => r.1 ≤ c && c ≤ r.2

end RegexItem

/-- A part of an expression: an item once or any number of times, or the end. -/
inductive RegexPart where
  | once (item : RegexItem)
  | star (item : RegexItem)
  | finish
deriving DecidableEq

/-- An expression, which begins at the start of a line or anywhere. -/
structure Regex where
  anchored : Bool
  parts : List RegexPart

namespace Regex

/-- The ranges in brackets up to the closing one. -/
def readRanges : Nat → List Char → Option (List (Char × Char) × List Char)
  | 0, _ => none
  | _, [] => none
  | _, ']' :: rest => some ([], rest)
  | n + 1, a :: '-' :: b :: rest =>
    if b = ']' then some ([(a, a), ('-', '-')], rest)
    else (readRanges n rest).map fun (rs, rest) => ((a, b) :: rs, rest)
  | n + 1, a :: rest => (readRanges n rest).map fun (rs, rest) => ((a, a) :: rs, rest)

def readBrackets (cs : List Char) : Option (RegexItem × List Char) :=
  let (negated, cs) := match cs with
    | '^' :: more => (true, more)
    | more => (false, more)
  match cs with
  | ']' :: more =>
    (readRanges cs.length more).map fun (rs, rest) => (.oneOf negated ((']', ']') :: rs), rest)
  | more => (readRanges (cs.length + 1) more).map fun (rs, rest) => (.oneOf negated rs, rest)

def readParts : Nat → List Char → List RegexPart
  | 0, _ => []
  | _, [] => []
  | _, ['$'] => [.finish]
  | n + 1, c :: cs =>
    let (item, rest) : RegexItem × List Char := match c, cs with
      | '\\', 'n' :: more => (.char '\n', more)
      | '\\', 't' :: more => (.char '\t', more)
      | '\\', d :: more => (.char d, more)
      | '.', more => (.any, more)
      | '[', more => (readBrackets more).getD (.char '[', more)
      | d, more => (.char d, more)
    match rest with
    | '*' :: more => .star item :: readParts n more
    | more => .once item :: readParts n more

def read (s : String) : Regex :=
  match s.toList with
  | '^' :: cs => ⟨true, readParts cs.length cs⟩
  | '*' :: cs => ⟨false, .once (.char '*') :: readParts cs.length cs⟩
  | cs => ⟨false, readParts cs.length cs⟩

/-- The length of the longest match of a starred item and what follows it, of which the item takes
at most so many characters. -/
def longest (rest : List Char → Option Nat) (cs : List Char) : Nat → Option Nat
  | 0 => rest cs
  | k + 1 =>
    match rest (cs.drop (k + 1)) with
    | some n => some (n + k + 1)
    | none => longest rest cs k

/-- The length of the match at the start of a text. -/
def matchParts : List RegexPart → List Char → Option Nat
  | [], _ => some 0
  | .finish :: ps, cs => if cs.isEmpty then matchParts ps cs else none
  | .once _ :: _, [] => none
  | .once item :: ps, c :: cs => if item.fits c then (matchParts ps cs).map (· + 1) else none
  | .star item :: ps, cs => longest (matchParts ps) cs (cs.takeWhile item.fits).length

/-- The first match from some place on: where it begins and its length. -/
def find? (r : Regex) (start : Nat) (cs : List Char) : Option (Nat × Nat) :=
  let places := (List.range (cs.length + 1)).filter fun k =>
    start ≤ k && (!r.anchored || k = 0)
  places.findSome? fun k => (matchParts r.parts (cs.drop k)).map fun n => (k, n)

/-- Whether an expression matches somewhere in a text. -/
def isIn (r : Regex) (cs : List Char) : Bool :=
  (r.find? 0 cs).isSome

/-- A text with the first match or all matches from some place on replaced. -/
def replaceFrom (r : Regex) (replacement : List Char → List Char) (all : Bool) :
    Nat → Nat → List Char → List Char
  | 0, start, cs => cs.drop start
  | n + 1, start, cs =>
    match r.find? start cs with
    | none => cs.drop start
    | some (k, width) =>
      let front := (cs.drop start).take (k - start)
      let found := replacement ((cs.drop k).take width)
      if width = 0 then
        match cs.drop k with
        | [] => front ++ found
        | c :: _ =>
          if all then front ++ found ++ c :: replaceFrom r replacement all n (k + 1) cs
          else front ++ found ++ cs.drop k
      else if all && k + width < cs.length then
        front ++ found ++ replaceFrom r replacement all n (k + width) cs
      else front ++ found ++ cs.drop (k + width)

/-- A replacement, in which an ampersand stands for what was found. -/
def substitute (replacement found : List Char) : List Char :=
  match replacement with
  | [] => []
  | '\\' :: 'n' :: rest => '\n' :: substitute rest found
  | '\\' :: c :: rest => c :: substitute rest found
  | '&' :: rest => found ++ substitute rest found
  | c :: rest => c :: substitute rest found

end Regex

end OnDemand.Rehearsal.Shell
