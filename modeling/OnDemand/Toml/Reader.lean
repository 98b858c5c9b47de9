import OnDemand.Toml.Document
import OnDemand.Toml.Moment
import OnDemand.Toml.Number

/-!
# Reading TOML

Keys, values, and statements, one to a line. Arrays may go over several lines, tables in braces may
not. Both are nested at most `nestingLimit` deep, and a key has at most `keyLimit` parts.
-/

namespace OnDemand.Toml

def nestingLimit : Nat := 79

def keyLimit : Nat := 79

/-! ## Keys -/

/-- The characters of a key without quotes. -/
def isBare (c : Char) : Bool :=
  c.isAlphanum || c == '_' || c == '-'

/-- One part of a key. -/
def readPart (cs : List Char) : Option (String × List Char) :=
  match readLineString cs with
  | some x => some x
  | none =>
    let part := cs.takeWhile isBare
    if part.isEmpty then none else some (String.ofList part, cs.dropWhile isBare)

/-- A key of at most so many parts, with the spaces around them. -/
def readKeyWithin : Nat → Reader Key
  | 0, _ => none
  | n + 1, cs =>
    match readPart (skipSpace cs) with
    | none => none
    | some (part, cs) =>
      match skipSpace cs with
      | '.' :: cs => (readKeyWithin n cs).map fun (k, rest) => (⟨part :: k.path, k.last⟩, rest)
      | cs => some (⟨[], part⟩, cs)

def readKey : Reader Key :=
  readKeyWithin keyLimit

/-! ## Values -/

/-- A value other than an array or a table. -/
def readScalar (cs : List Char) : Option (Value × List Char) :=
  match cs with
  | 't' :: 'r' :: 'u' :: 'e' :: rest => some (.boolean true, rest)
  | 'f' :: 'a' :: 'l' :: 's' :: 'e' :: rest => some (.boolean false, rest)
  | cs =>
    match readString cs with
    | some (s, rest) => some (.string s, rest)
    | none =>
      match afterMoment? cs with
      | some rest => some (.moment, rest)
      | none =>
        match afterFloat? cs with
        | some rest => some (.float, rest)
        | none => (readInteger cs).map fun (n, rest) => (.integer n, rest)

/-- The items of an array and its closing bracket. The number bounds how many there are. -/
def readItems (item : Reader Value) : Nat → Reader (List Value)
  | 0, _ => none
  | n + 1, cs =>
    match skipLayout cs with
    | ']' :: rest => some ([], rest)
    | cs =>
      match item cs with
      | none => none
      | some (v, cs) =>
        match skipLayout cs with
        | ']' :: rest => some ([v], rest)
        | ',' :: cs => (readItems item n cs).map fun (vs, rest) => (v :: vs, rest)
        | _ => none

/-- A key, an equals sign and a value. -/
def readAssignment (value : Reader Value) (cs : List Char) : Option ((Key × Value) × List Char) :=
  match readKey cs with
  | some (k, '=' :: cs) => (value (skipSpace cs)).map fun (v, rest) => ((k, v), rest)
  | _ => none

/-- The assignments of a table in braces and its closing brace. The number bounds how many there
are. -/
def readMembers (value : Reader Value) : Nat → Reader (List (Key × Value))
  | 0, _ => none
  | n + 1, cs =>
    match readAssignment value cs with
    | none => none
    | some (a, cs) =>
      match skipSpace cs with
      | '\x7d' :: rest => some ([a], rest)
      | ',' :: cs => (readMembers value n cs).map fun (as, rest) => (a :: as, rest)
      | _ => none

/-- A table after its opening brace. -/
def readBraces (value : Reader Value) (cs : List Char) : Option (Value × List Char) :=
  match skipSpace cs with
  | '\x7d' :: rest => some (.table .closed [], rest)
  | cs =>
    match readMembers value cs.length cs with
    | none => none
    | some (as, rest) => (Fields.ofAssignments as).map fun fs => (.table .closed fs, rest)

/-- A value in which arrays and tables are nested at most so deep. -/
def readValueWithin : Nat → Reader Value
  | n + 1, '[' :: cs => (readItems (readValueWithin n) (cs.length + 1) cs).map fun (vs, rest) => (.array vs, rest)
  | n + 1, '\x7b' :: cs => readBraces (readValueWithin n) cs
  | _, cs => readScalar cs

def readValue : Reader Value :=
  readValueWithin nestingLimit

/-! ## Statements -/

/-- A statement without the end of its line. -/
def readStatement : Reader Statement
  | '[' :: '[' :: cs =>
    match readKey cs with
    | some (k, ']' :: ']' :: rest) => some (.doubleHeader k, rest)
    | _ => none
  | '[' :: cs =>
    match readKey cs with
    | some (k, ']' :: rest) => some (.header k, rest)
    | _ => none
  | cs => (readAssignment readValue cs).map fun ((k, v), rest) => (.assign k v, rest)

/-- The statements of a text. The number bounds how many lines it has. -/
def readStatements : Nat → List Char → Option (List Statement)
  | _, [] => some []
  | 0, _ => none
  | n + 1, cs =>
    match afterLine? cs with
    | some rest => readStatements n rest
    | none =>
      match readStatement (skipSpace cs) with
      | none => none
      | some (s, cs) =>
        match afterLine? cs with
        | none => none
        | some rest => (readStatements n rest).map (s :: ·)

/-- The text after a byte order mark, if it begins with one. -/
def dropMark : List Char → List Char
  | '\ufeff' :: cs => cs
  | cs => cs

/-- The table that a text describes. -/
def read (text : String) : Option Fields :=
  let cs := dropMark text.toList
  (readStatements (cs.length + 1) cs).bind Fields.ofStatements

end OnDemand.Toml
