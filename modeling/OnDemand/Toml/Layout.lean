/-!
# Layout of TOML text

Blanks, line ends and comments. A reader gets the text as characters and gives what it read with
the rest of the text, or nothing where the text does not fit.
-/

namespace OnDemand.Toml

/-- What a reader makes of a text. -/
abbrev Reader (α : Type) := List Char → Option (α × List Char)

def isSpace (c : Char) : Bool :=
  c == ' ' || c == '\t'

/-- The characters that a comment and a string on one line may hold: all but the control
characters other than the tab. -/
def isPlain (c : Char) : Bool :=
  c == '\t' || (0x20 ≤ c.toNat && c.toNat ≠ 0x7f)

def skipSpace (cs : List Char) : List Char :=
  cs.dropWhile isSpace

/-- The text after a line end. -/
def afterNewline? : List Char → Option (List Char)
  | '\n' :: cs => some cs
  | '\r' :: '\n' :: cs => some cs
  | _ => none

/-- The text after spaces, a comment, and the end of the line or of the text. -/
def afterLine? (cs : List Char) : Option (List Char) :=
  let rest := match skipSpace cs with
    | '#' :: cs => cs.dropWhile isPlain
    | cs => cs
  match rest with
  | [] => some []
  | cs => afterNewline? cs

/-- Skips spaces and line ends, and comments where they end a line. -/
def skipLayout : List Char → List Char
  | [] => []
  | ' ' :: cs => skipLayout cs
  | '\t' :: cs => skipLayout cs
  | '\n' :: cs => skipLayout cs
  | '\r' :: '\n' :: cs => skipLayout cs
  | '#' :: cs =>
    have := (List.dropWhile_suffix (l := cs) isPlain).length_le
    skipLayout (cs.dropWhile isPlain)
  | cs => cs
termination_by cs => cs.length
decreasing_by all_goals simp only [List.length_cons]; omega

end OnDemand.Toml
