import OnDemand.Text.Escaped

/-!
# JSON text

Values as they are written on one line, without spaces. The members of an object are written in
the order given; `Json.object` puts them in ascending order of keys. In strings only the double
quote, the backslash and the characters below the space are escaped.
-/

namespace OnDemand

/-- A JSON value whose numbers are counts. -/
inductive Json where
  | null
  | bool (b : Bool)
  | number (n : Nat)
  | string (s : String)
  | array (items : List Json)
  | members (fields : List (String × Json))

namespace Json

/-- Adds a member to an ascending list, in place of one with the same key. -/
def insertField (field : String × Json) : List (String × Json) → List (String × Json)
  | [] => [field]
  | f :: fs =>
    if field.1 < f.1 then field :: f :: fs
    else if f.1 < field.1 then f :: insertField field fs
    else field :: fs

/-- An object with its members in ascending order of keys. -/
def object (fields : List (String × Json)) : Json :=
  .members (fields.foldl (fun acc f => insertField f acc) [])

def strings (ss : List String) : Json :=
  .array (ss.map .string)

/-- A string, or null where there is none. -/
def optional : Option String → Json
  | some s => .string s
  | none => .null

/-! ## Writing -/

/-- The escape of a character in a string. -/
def escape (c : Char) : List Char :=
  if c = '"' then ['\\', '"']
  else if c = '\\' then ['\\', '\\']
  else if c = '\x08' then ['\\', 'b']
  else if c = '\t' then ['\\', 't']
  else if c = '\n' then ['\\', 'n']
  else if c = '\x0c' then ['\\', 'f']
  else if c = '\r' then ['\\', 'r']
  else if c.toNat < 0x20 then
    ['\\', 'u', '0', '0', Text.hexDigit (c.toNat / 16), Text.hexDigit (c.toNat % 16)]
  else [c]

def quoted (s : String) : List Char :=
  '"' :: s.toList.flatMap escape ++ ['"']

/-- The decimal digits of a count. -/
def digits (n : Nat) : List Char :=
  if n < 10 then [Char.ofNat (n + 48)] else digits (n / 10) ++ [Char.ofNat (n % 10 + 48)]

mutual

def chars : Json → List Char
  | .null => ['n', 'u', 'l', 'l']
  | .bool true => ['t', 'r', 'u', 'e']
  | .bool false => ['f', 'a', 'l', 's', 'e']
  | .number n => digits n
  | .string s => quoted s
  | .array items => '[' :: itemChars items ++ [']']
  | .members fields => '\x7b' :: fieldChars fields ++ ['\x7d']

def itemChars : List Json → List Char
  | [] => []
  | [j] => chars j
  | j :: k :: js => chars j ++ ',' :: itemChars (k :: js)

def fieldChars : List (String × Json) → List Char
  | [] => []
  | [(k, j)] => quoted k ++ ':' :: chars j
  | (k, j) :: f :: fs => quoted k ++ ':' :: chars j ++ ',' :: fieldChars (f :: fs)

end

/-- The text of a value. -/
def text (j : Json) : String :=
  String.ofList j.chars

end Json

end OnDemand
