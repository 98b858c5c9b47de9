import OnDemand.Rehearsal.Shell.State

/-!
# Fields

What expansions give is cut into fields at separators, and a field with a pattern stands for the
names of the files that it matches.
-/

namespace OnDemand.Rehearsal.Shell

/-- Where a character of an expanded word comes from. -/
inductive Mark where
  /-- The script itself, without quotes. -/
  | script
  | quoted
  /-- The value of an expansion without quotes. -/
  | value
deriving DecidableEq

/-- An item of an expanded word. -/
inductive Item where
  | char (c : Char) (mark : Mark)
  /-- Between two parameters that stay apart. -/
  | separation
  /-- There are quotes, perhaps around nothing. -/
  | quotes

namespace Item

def ofText (mark : Mark) (s : String) : List Item :=
  s.toList.map fun c => .char c mark

/-- The value of an expansion. -/
def ofValue (inQuotes : Bool) (s : String) : List Item :=
  if inQuotes then .quotes :: ofText .quoted s else ofText .value s

/-- The text of items that are not cut into fields. -/
def text (items : List Item) : String :=
  String.ofList (items.filterMap fun
    | .char c _ => some c
    | .separation => some ' '
    | .quotes => none)

/-- The characters of items, each with whether it is quoted. -/
def marked (items : List Item) : List (Char × Bool) :=
  items.filterMap fun
    | .char c m => some (c, m = .quoted)
    | .separation => some (' ', false)
    | .quotes => none

end Item

/-- The characters of a field, each with whether it is quoted. -/
abbrev Field := List (Char × Bool)

def isWhiteSeparator (c : Char) : Bool :=
  c ∈ [' ', '\t', '\n']

/-- Cuts items into fields at the separators in values. White separators only end a field, others
also stand between empty ones; the flag tells that white ones came last. -/
def splitFields (separators : List Char) : List Item → Option Field → Bool → List Field
  | [], current, _ => (current.map List.reverse).toList
  | .separation :: items, current, _ =>
    (current.map List.reverse).toList ++ splitFields separators items none false
  | .quotes :: items, current, _ =>
    splitFields separators items (some (current.getD [])) false
  | .char c m :: items, current, white =>
    if m = .value && c ∈ separators then
      if isWhiteSeparator c then
        match current with
        | some f => f.reverse :: splitFields separators items none true
        | none => splitFields separators items none white
      else match current, white with
        | some f, _ => f.reverse :: splitFields separators items none false
        | none, true => splitFields separators items none false
        | none, false => [] :: splitFields separators items none false
    else splitFields separators items (some ((c, m = .quoted) :: current.getD [])) false

namespace State

/-- The characters that separate fields. -/
def separators (s : State) : List Char :=
  ((s.binding? "IFS").getD " \t\n").toList

def fieldText (f : Field) : String :=
  String.ofList (f.map Prod.fst)

def hasPattern (f : Field) : Bool :=
  f.any fun (c, isQuoted) => !isQuoted && c ∈ ['*', '?', '[']

/-- The pieces of a field between its slashes. -/
def piecesOfField : Field → List Field
  | [] => [[]]
  | (c, isQuoted) :: f =>
    if c = '/' then [] :: piecesOfField f
    else match piecesOfField f with
      | [] => [[(c, isQuoted)]]
      | p :: ps => ((c, isQuoted) :: p) :: ps

/-- The paths that go on from a beginning through names matching some patterns. -/
def matchPaths (s : State) : List Field → String → List String
  | [], front => [front]
  | p :: ps, front =>
    let ending := if ps.isEmpty then "" else "/"
    if hasPattern p then
      let pattern := Glob.read p
      let here := if front = "" then "." else front
      match s.tree.look s.cwd (State.path here) with
      | .ok (l, .dir) =>
        let names := (s.tree.names l).map ofText
        let hidden := p.head?.map Prod.fst == some '.'
        let fitting := names.filter fun n =>
          (hidden || !n.startsWith ".") && Glob.matches? pattern n.toList
        fitting.flatMap fun n => s.matchPaths ps (front ++ n ++ ending)
      | _ => []
    else s.matchPaths ps (front ++ fieldText p ++ ending)

/-- The texts that a field stands for. -/
def fieldTexts (s : State) (f : Field) : List String :=
  if hasPattern f then
    let found := (s.matchPaths (piecesOfField f) "").filter fun p =>
      s.tree.pathExists s.cwd (State.path p)
    if found.isEmpty then [fieldText f] else found.mergeSort fun a b => !decide (b < a)
  else [fieldText f]

end State

end OnDemand.Rehearsal.Shell
