import OnDemand.Json
import OnDemand.Rehearsal.Shell.State

/-!
# Formatted output

`echo` and `printf`, with the escapes of both.
-/

namespace OnDemand.Rehearsal.Shell

/-- A number of up to so many octal digits, and how many there are. -/
def octalAhead (most : Nat) (cs : List Char) : Nat × Nat :=
  let ds := (cs.take most).takeWhile fun c => '0' ≤ c && c ≤ '7'
  (ds.foldl (fun n d => n * 8 + (d.toNat - 48)) 0, ds.length)

/-- The character of an escape by a letter. -/
def letterEscape? : Char → Option Char
  | 'a' => some '\x07'
  | 'b' => some '\x08'
  | 'e' => some '\x1b'
  | 'f' => some '\x0c'
  | 'n' => some '\n'
  | 'r' => some '\r'
  | 't' => some '\t'
  | 'v' => some '\x0b'
  | '\\' => some '\\'
  | _ => none

/-- A text with its escapes replaced, and whether an escape ended all output. The zero before an
octal number counts as one of its digits or not. -/
def unescape (zeroCounts : Bool) : Nat → List Char → List Char × Bool
  | 0, cs => (cs, false)
  | _, [] => ([], false)
  | n + 1, '\\' :: c :: cs =>
    let put (d : Char) (rest : List Char) : List Char × Bool :=
      let (ds, stopped) := unescape zeroCounts n rest
      (d :: ds, stopped)
    if c = 'c' then ([], true)
    else if '0' ≤ c && c ≤ '7' then
      let digits := if c = '0' && !zeroCounts then cs else c :: cs
      let (k, width) := octalAhead 3 digits
      put (Char.ofNat (k % 256)) (digits.drop width)
    else match letterEscape? c with
      | some d => put d cs
      | none =>
        let (ds, stopped) := unescape zeroCounts n cs
        ('\\' :: c :: ds, stopped)
  | n + 1, c :: cs =>
    let (ds, stopped) := unescape zeroCounts n cs
    (c :: ds, stopped)

def unescaped (zeroCounts : Bool) (s : String) : String × Bool :=
  let (cs, stopped) := unescape zeroCounts (s.length + 1) s.toList
  (String.ofList cs, stopped)

/-- Writes the arguments with spaces between, and a newline unless `-n` goes first. -/
def echo (s : State) (args : List String) : State × Nat :=
  let (ending, args) := match args with
    | "-n" :: rest => ("", rest)
    | rest => ("\n", rest)
  let (text, stopped) := unescaped false (" ".intercalate args)
  (s.out (text ++ if stopped then "" else ending), 0)

/-! ## Formats -/

/-- A directive of a format. -/
structure Directive where
  left : Bool
  zero : Bool
  plus : Bool
  width : Nat
  precision : Option Nat
  conversion : Char

/-- The directive after a percent sign, and what follows it. -/
def readDirective (cs : List Char) : Option (Directive × List Char) :=
  let flags := cs.takeWhile fun c => c ∈ ['-', '0', '+', ' ', '#']
  let cs := cs.drop flags.length
  let number (ds : List Char) : Nat := ds.foldl (fun n d => n * 10 + (d.toNat - 48)) 0
  let width := cs.takeWhile Char.isDigit
  let cs := cs.drop width.length
  let (precision, cs) := match cs with
    | '.' :: more =>
      let ds := more.takeWhile Char.isDigit
      (some (number ds), more.drop ds.length)
    | more => (none, more)
  match cs with
  | c :: rest =>
    some (⟨'-' ∈ flags, '0' ∈ flags, '+' ∈ flags, number width, precision, c⟩, rest)
  | [] => none

/-- A text in a field of a width. -/
def pad (d : Directive) (zero : Bool) (text : String) : String :=
  let fill := d.width - text.length
  if d.left then text ++ String.ofList (List.replicate fill ' ')
  else if zero then
    match text.toList with
    | '-' :: ds => "-" ++ String.ofList (List.replicate fill '0' ++ ds)
    | ds => String.ofList (List.replicate fill '0' ++ ds)
  else String.ofList (List.replicate fill ' ') ++ text

def digitsIn (base : Nat) (n : Nat) : String :=
  String.ofList (Nat.toDigits base n)

/-- The number that an argument stands for, and whether all of it does. -/
def integerArgument (arg : String) : Int × Bool :=
  match arg.toList with
  | [] => (0, true)
  | '\'' :: c :: _ => (c.toNat, true)
  | '"' :: c :: _ => (c.toNat, true)
  | cs =>
    let (negative, cs) := match cs with
      | '-' :: more => (true, more)
      | '+' :: more => (false, more)
      | more => (false, more)
    let (base, ds) := match cs with
      | '0' :: 'x' :: more => (16, more)
      | '0' :: more => (8, '0' :: more)
      | more => (10, more)
    let value (c : Char) : Option Nat :=
      let v := if c.isDigit then c.toNat - 48
        else if 'a' ≤ c && c ≤ 'f' then c.toNat - 87
        else if 'A' ≤ c && c ≤ 'F' then c.toNat - 55 else 99
      if v < base then some v else none
    let good := ds.takeWhile fun c => (value c).isSome
    let n := good.foldl (fun n c => n * base + (value c).getD 0) 0
    (if negative then -(n : Int) else n, good.length = ds.length && good ≠ [])

/-- The result of formatting: text, the arguments left, whether output is to stop, and what was
wrong. -/
structure Formatted where
  text : String
  args : List String
  stopped : Bool
  wrong : List String

/-- The text of a directive for the next argument. -/
def directive (d : Directive) (args : List String) : Option Formatted :=
  let arg := args.headD ""
  let rest := args.drop 1
  let cut (s : String) : String := match d.precision with
    | some p => String.ofList (s.toList.take p)
    | none => s
  let numeric (show_ : Int → String) : Option Formatted :=
    let (n, whole) := integerArgument arg
    some ⟨pad d d.zero (show_ n), rest, false,
      if whole then [] else [arg ++ ": expected numeric value"]⟩
  let unsigned (base : Nat) : Option Formatted :=
    numeric fun n => digitsIn base (BitVec.ofInt 64 n).toNat
  match d.conversion with
  | 's' => some ⟨pad d false (cut arg), rest, false, []⟩
  | 'b' =>
    let (text, stopped) := unescaped false arg
    some ⟨pad d false (cut text), rest, stopped, []⟩
  | 'c' => some ⟨pad d false (String.ofList (arg.toList.take 1)), rest, false, []⟩
  | 'd' => numeric fun n => (if d.plus && 0 ≤ n then "+" else "") ++ toString n
  | 'i' => numeric fun n => (if d.plus && 0 ≤ n then "+" else "") ++ toString n
  | 'u' => unsigned 10
  | 'o' => unsigned 8
  | 'x' => unsigned 16
  | 'X' => (unsigned 16).map fun f => { f with text := f.text.map Char.toUpper }
  | _ => none

/-- The text of a format for some arguments. -/
def format : Nat → List Char → List String → Formatted
  | 0, _, args => ⟨"", args, true, []⟩
  | _, [], args => ⟨"", args, false, []⟩
  | n + 1, '%' :: '%' :: cs, args =>
    let f := format n cs args
    { f with text := "%" ++ f.text }
  | n + 1, '%' :: cs, args =>
    match readDirective cs with
    | none => ⟨"", args, true, ["missing format character"]⟩
    | some (d, rest) =>
      match directive d args with
      | none =>
        let shown := String.ofList (cs.take (cs.length - rest.length))
        ⟨"", args, true, ["%" ++ shown ++ ": invalid directive"]⟩
      | some f =>
        if f.stopped then f
        else
          let g := format n rest f.args
          { g with text := f.text ++ g.text, wrong := f.wrong ++ g.wrong }
  | n + 1, '\\' :: c :: cs, args =>
    let (text, rest) := if '0' ≤ c && c ≤ '7' then
        let (k, width) := octalAhead 3 (c :: cs)
        (String.ofList [Char.ofNat (k % 256)], (c :: cs).drop width)
      else match letterEscape? c with
        | some d => (String.ofList [d], cs)
        | none => (String.ofList ['\\', c], cs)
    let f := format n rest args
    { f with text := text ++ f.text }
  | n + 1, c :: cs, args =>
    let f := format n cs args
    { f with text := String.ofList [c] ++ f.text }

/-- Formats again as long as arguments are left that the format takes. -/
def formatAll : Nat → List Char → List String → Formatted
  | 0, _, args => ⟨"", args, true, []⟩
  | n + 1, cs, args =>
    let f := format (cs.length + 1) cs args
    if f.stopped || f.args.isEmpty || f.args.length = args.length then f
    else
      let g := formatAll n cs f.args
      { g with text := f.text ++ g.text, wrong := f.wrong ++ g.wrong }

def printf (s : State) : List String → State × Nat
  | [] => s.refuse "printf" "usage: printf format [arg ...]"
  | form :: args =>
    let f := formatAll (args.length + 1) form.toList args
    let s := f.wrong.foldl (fun s w => s.complain ("printf: " ++ w)) (s.out f.text)
    let bad := f.wrong.any fun w => w.endsWith "directive" || w.endsWith "character"
    (s, if f.wrong.isEmpty then 0 else if bad then 2 else 1)

end OnDemand.Rehearsal.Shell
