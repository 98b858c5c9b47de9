import OnDemand.Text.Printable

/-!
# Escaped text

How a single character and a piece of a path are shown inside quotes, so that a reader of an error
message can tell a tab from a space.
-/

namespace OnDemand.Text

def hexDigit (n : Nat) : Char :=
  if n < 10 then Char.ofNat (n + 48) else Char.ofNat (n + 87)

/-- The digits of a number to base sixteen, most significant first. -/
def hexDigits (n : Nat) : List Char :=
  if n < 16 then [hexDigit n] else hexDigits (n / 16) ++ [hexDigit (n % 16)]

/-- A character inside quotes. The two quotes are escaped where `quotes` says so. -/
def escapeChar (quotes : Char → Bool) (c : Char) : List Char :=
  if c = '\x00' then ['\\', '0']
  else if c = '\t' then ['\\', 't']
  else if c = '\n' then ['\\', 'n']
  else if c = '\r' then ['\\', 'r']
  else if c = '\\' then ['\\', '\\']
  else if quotes c then ['\\', c]
  else if isPrintable c then [c]
  else ['\\', 'u', '\x7b'] ++ hexDigits c.toNat ++ ['\x7d']

/-- A character in single quotes. -/
def quoteChar (c : Char) : String :=
  String.ofList ('\'' :: escapeChar (· == '\'') c ++ ['\''])

/-- A piece of a path in double quotes; both kinds of quote are escaped in it. -/
def quotePath (s : String) : String :=
  String.ofList ('"' :: s.toList.flatMap (escapeChar fun c => c == '\'' || c == '"') ++ ['"'])

end OnDemand.Text
