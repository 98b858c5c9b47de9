import OnDemand.Json
import OnDemand.Toml.Layout
import OnDemand.Toml.Value

/-!
# Writing TOML

A document of sections, each with its header, one setting to a line and an empty line between
sections. An array of several items has one item to a line. A string is written in the first of
these forms that can hold it without escapes: in double quotes, in single quotes, over several
lines in double quotes, over several lines in single quotes; and in double quotes with escapes
where none can.
-/

namespace OnDemand.Toml

/-! ## Strings -/

/-- The length of the longest run of a character, given that of the run that goes on. -/
def longestRun (c : Char) : Nat → List Char → Nat
  | n, [] => n
  | n, d :: cs => if d = c then longestRun c (n + 1) cs else max n (longestRun c 0 cs)

/-- The control characters that need an escape everywhere: all but the tab and the newline. -/
def needsEscape (c : Char) : Bool :=
  !isPlain c && c ≠ '\n'

def upperHexDigit (n : Nat) : Char :=
  if n < 10 then Char.ofNat (n + 48) else Char.ofNat (n + 55)

/-- The escape of a character. -/
def escapeOf (c : Char) : List Char :=
  if c = '\x08' then ['\\', 'b']
  else if c = '\t' then ['\\', 't']
  else if c = '\n' then ['\\', 'n']
  else if c = '\x0c' then ['\\', 'f']
  else if c = '\r' then ['\\', 'r']
  else if c = '"' then ['\\', '"']
  else if c = '\\' then ['\\', '\\']
  else ['\\', 'u', '0', '0', upperHexDigit (c.toNat / 16), upperHexDigit (c.toNat % 16)]

/-- A character in a string on one line with escapes. -/
def basicChar (c : Char) : List Char :=
  if c = '"' || c = '\\' || c = '\t' || !isPlain c then escapeOf c else [c]

/-- The characters of a string over several lines with escapes. Newlines stand for themselves, and
so do quotes except each third of a run; the number counts those before. -/
def blockChars : Nat → List Char → List Char
  | _, [] => []
  | n, c :: cs =>
    if c = '"' then
      if n = 2 then escapeOf c ++ blockChars 0 cs else c :: blockChars (n + 1) cs
    else if c = '\n' then c :: blockChars 0 cs
    else basicChar c ++ blockChars 0 cs

def basicForm (cs : List Char) : List Char :=
  '"' :: cs.flatMap basicChar ++ ['"']

def literalForm (cs : List Char) : List Char :=
  '\'' :: cs ++ ['\'']

/-- The line end after opening quotes, for a string that has any. -/
def openingLine (cs : List Char) : List Char :=
  if '\n' ∈ cs then ['\n'] else []

def blockForm (cs : List Char) : List Char :=
  ['"', '"', '"'] ++ openingLine cs ++ blockChars 0 cs ++ ['"', '"', '"']

def literalBlockForm (cs : List Char) : List Char :=
  ['\'', '\'', '\''] ++ openingLine cs ++ cs ++ ['\'', '\'', '\'']

/-- A string with its quotes. -/
def writeString (s : String) : List Char :=
  let cs := s.toList
  let escaped := cs.any needsEscape
  let lines := decide ('\n' ∈ cs)
  let backslash := decide ('\\' ∈ cs)
  let doubles := longestRun '"' 0 cs
  let singles := longestRun '\'' 0 cs
  if !escaped && !lines && !backslash && doubles = 0 then basicForm cs
  else if !escaped && !lines && singles = 0 then literalForm cs
  else if !escaped && !backslash && doubles ≤ 2 then blockForm cs
  else if !escaped && singles ≤ 2 then literalBlockForm cs
  else if lines then blockForm cs
  else basicForm cs

/-! ## Values and sections -/

def writeInteger : Int → List Char
  | .ofNat n => Json.digits n
  | .negSucc n => '-' :: Json.digits (n + 1)

/-- The items of an array over several lines, one to a line. -/
def writeItems (items : List String) : List Char :=
  items.flatMap fun s => [' ', ' ', ' ', ' '] ++ writeString s ++ [',', '\n']

/-- An array of strings. -/
def writeStrings : List String → List Char
  | [] => ['[', ']']
  | [s] => '[' :: writeString s ++ [']']
  | items => ['[', '\n'] ++ writeItems items ++ [']']

/-- What a setting is written as. -/
inductive Setting where
  | string (s : String)
  | strings (ss : List String)
  | integer (n : Int)
  | boolean (b : Bool)
deriving DecidableEq

namespace Setting

def chars : Setting → List Char
  | string s => writeString s
  | strings ss => writeStrings ss
  | integer n => writeInteger n
  | boolean true => ['t', 'r', 'u', 'e']
  | boolean false => ['f', 'a', 'l', 's', 'e']

def value : Setting → Value
  | string s => .string s
  | strings ss => .array (ss.map .string)
  | integer n => .integer n
  | boolean b => .boolean b

end Setting

/-- A section: its name and its settings. -/
structure Section where
  name : String
  settings : List (String × Setting)
deriving DecidableEq

namespace Section

def chars (s : Section) : List Char :=
  '[' :: s.name.toList ++ [']', '\n'] ++
    s.settings.flatMap fun (key, v) => key.toList ++ [' ', '=', ' '] ++ v.chars ++ ['\n']

end Section

/-- Sections with an empty line between. -/
def writeSections : List Section → List Char
  | [] => []
  | [s] => s.chars
  | s :: t :: ss => s.chars ++ '\n' :: writeSections (t :: ss)

/-- The text of a document of sections. -/
def write (sections : List Section) : String :=
  String.ofList (writeSections sections)

end OnDemand.Toml
