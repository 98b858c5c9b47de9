import OnDemand.Toml.Value

/-!
# Documents

A document is a list of statements, and they make up one table. A header opens a table for the
assignments after it. Nothing is defined twice: a key holds one value, a table has one header, and a
table in braces is complete. Dotted keys add only to tables that came about by dotted keys, and a
header opens no table that dotted keys made.
-/

namespace OnDemand.Toml

namespace Fields

/-- Puts a value in place of the one under a key. -/
def put (key : String) (v : Value) (fs : Fields) : Fields :=
  fs.map fun f => if f.1 = key then (key, v) else f

def erase (key : String) (fs : Fields) : Fields :=
  fs.filter (·.1 ≠ key)

/-- Whether a table may be gone through on the way to another; by a dotted key only one without a
header. -/
def isPassable (viaDotted : Bool) : Form → Bool
  | .closed => false
  | .header => !viaDotted
  | .implied => true
  | .dotted => true

/-- Changes the table that a path leads to. Tables missing on the way are made, and of several
tables under one key the way goes through the last. -/
def alter (viaDotted : Bool) (change : Form → Fields → Option Fields) :
    List String → Form → Fields → Option Fields
  | [], form, fs => change form fs
  | key :: path, _, fs =>
    match fs.lookup key with
    | none =>
      let form := if viaDotted then .dotted else .implied
      (alter viaDotted change path form []).map fun sub => fs ++ [(key, .table form sub)]
    | some (.table form sub) =>
      if isPassable viaDotted form then
        (alter viaDotted change path form sub).map fun sub => put key (.table form sub) fs
      else none
    | some (.tables elements) =>
      (alter viaDotted change path .header (elements.getLast?.getD [])).map fun sub =>
        put key (.tables (elements.dropLast ++ [sub])) fs
    | some _ => none

/-- Adds a field to a table in which its key is free. -/
def add (key : String) (v : Value) (fs : Fields) : Option Fields :=
  if (fs.lookup key).isSome then none else some (fs ++ [(key, v)])

/-- Assigns a value to a key. A dotted key ends in a table that dotted keys made. -/
def assign (k : Key) (v : Value) (form : Form) (fs : Fields) : Option Fields :=
  let change (form : Form) (fs : Fields) : Option Fields :=
    if k.path ≠ [] ∧ form ≠ .dotted then none else add k.last v fs
  alter true change k.path form fs

/-- Opens a table with a header. One that was only on the way to others moves to the end. -/
def openTable (k : Key) (fs : Fields) : Option Fields :=
  let change (_ : Form) (fs : Fields) : Option Fields :=
    match fs.lookup k.last with
    | none => some (fs ++ [(k.last, .table .header [])])
    | some (.table .implied sub) => some (erase k.last fs ++ [(k.last, .table .header sub)])
    | some _ => none
  alter false change k.path .header fs

/-- Opens a further table under a key. -/
def openElement (k : Key) (fs : Fields) : Option Fields :=
  let change (_ : Form) (fs : Fields) : Option Fields :=
    match fs.lookup k.last with
    | none => some (fs ++ [(k.last, .tables [[]])])
    | some (.tables elements) => some (put k.last (.tables (elements ++ [[]])) fs)
    | some _ => none
  alter false change k.path .header fs

/-- The fields of a table in braces. -/
def ofAssignments (assignments : List (Key × Value)) : Option Fields :=
  assignments.foldlM (fun fs (k, v) => assign k v .closed fs) []

end Fields

/-- A document on the way: its fields, and the path of the table that assignments go to. -/
structure Draft where
  fields : Fields
  here : List String

namespace Draft

def empty : Draft := ⟨[], []⟩

def step (d : Draft) : Statement → Option Draft
  | .header k => (Fields.openTable k d.fields).map fun fs => ⟨fs, k.path ++ [k.last]⟩
  | .doubleHeader k => (Fields.openElement k d.fields).map fun fs => ⟨fs, k.path ++ [k.last]⟩
  | .assign k v =>
    (Fields.alter false (Fields.assign k v) d.here .header d.fields).map fun fs => ⟨fs, d.here⟩

end Draft

/-- The table that statements make up. -/
def Fields.ofStatements (statements : List Statement) : Option Fields :=
  (statements.foldlM Draft.step Draft.empty).map Draft.fields

end OnDemand.Toml
