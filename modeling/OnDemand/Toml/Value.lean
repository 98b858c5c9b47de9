/-!
# Values of a TOML document

A table keeps its fields in the order in which they were written, and how it came about: tables of
different forms are open to different later additions. Of values that have no use as settings
(floating-point numbers, dates and times) only the kind is kept.
-/

namespace OnDemand.Toml

/-- How a table came about. -/
inductive Form where
  /-- Written in braces, all at once. -/
  | closed
  /-- Opened by a header of its own. -/
  | header
  /-- On the way to a table that a header opened. -/
  | implied
  /-- On the way of a dotted key. -/
  | dotted
deriving DecidableEq

/-- A value. -/
inductive Value where
  | string (s : String)
  | integer (n : Int)
  | float
  | boolean (b : Bool)
  | moment
  | array (items : List Value)
  | table (form : Form) (fields : List (String × Value))
  /-- Tables opened by double headers of the same key, first to last. -/
  | tables (elements : List (List (String × Value)))

/-- The fields of a table, in the order in which they were written. -/
abbrev Fields := List (String × Value)

/-- A key of one or more parts: those on the way, and the last. -/
structure Key where
  path : List String
  last : String
deriving DecidableEq

/-- One statement of a document. -/
inductive Statement where
  | header (k : Key)
  | doubleHeader (k : Key)
  | assign (k : Key) (v : Value)

end OnDemand.Toml
