import OnDemand.Rehearsal.Shell.Files
import OnDemand.Rehearsal.Shell.Regex

/-!
# Utilities on text

Filters read the files named in their arguments, or else what they are given to read.
-/

namespace OnDemand.Rehearsal.Shell

/-- The texts of some files; a dash stands for what is given to read. -/
def inputs (utility : String) (s : State) (files : List String) :
    State × List (String × String) × Nat :=
  let files := if files.isEmpty then ["-"] else files
  let (s, texts, status) := files.foldl (fun (s, texts, status) f =>
    if f = "-" then
      let (s, text) := State.readAll s
      (s, (f, text) :: texts, status)
    else match s.tree.read s.cwd (State.path f) with
      | .ok bytes => (s, (f, ofBytes bytes) :: texts, status)
      | .error e => (State.warn s utility (f ++ ": " ++ e.reason), texts, 1))
    ((s, [], 0) : State × List (String × String) × Nat)
  (s, texts.reverse, status)

/-- The lines of a text without their ends. -/
def linesOfText (text : String) : List String :=
  match (text.splitOn "\n").reverse with
  | "" :: rest => rest.reverse
  | rest => rest.reverse

def unlines (lines : List String) : String :=
  String.join (lines.map (· ++ "\n"))

/-- A filter from the lines of all inputs to lines. -/
def lineFilter (utility : String) (s : State) (files : List String)
    (f : List String → List String) : State × Nat :=
  let (s, texts, status) := inputs utility s files
  (s.out (unlines (f (texts.flatMap fun t => linesOfText t.2))), status)

def cat (s : State) (args : List String) : State × Nat :=
  let (s, texts, status) := inputs "cat" s (splitOptions args).2
  (s.out (String.join (texts.map Prod.snd)), status)

/-! ## Order -/

/-- The number that a line begins with. -/
def leadingNumber (line : String) : Int :=
  let cs := line.toList.dropWhile fun c => c == ' ' || c == '\t'
  let (negative, cs) := match cs with
    | '-' :: more => (true, more)
    | more => (false, more)
  let n : Int := (cs.takeWhile Char.isDigit).foldl (fun n d => n * 10 + (d.toNat - 48)) (0 : Nat)
  if negative then -n else n

def sort (s : State) (args : List String) : State × Nat :=
  let (options, files) := splitOptions args
  match files.find? fun f => f ≠ "-" && !s.tree.pathExists s.cwd (State.path f) with
  | some f => (s.warn "sort" ("cannot read: " ++ f ++ ": No such file or directory"), 2)
  | none =>
    lineFilter "sort" s files fun lines =>
      let before (a b : String) : Bool :=
        if 'n' ∈ options then
          leadingNumber a < leadingNumber b || (leadingNumber a = leadingNumber b && !decide (b < a))
        else !decide (b < a)
      let lines := lines.mergeSort before
      let lines := if 'r' ∈ options then lines.reverse else lines
      if 'u' ∈ options then lines.eraseDups else lines

def numberIn (text : String) : Nat :=
  (text.toList.filter Char.isDigit).foldl (fun n d => n * 10 + (d.toNat - 48)) 0

/-! ## Characters -/

/-- The characters from one to another. -/
def charsBetween (a b : Char) : List Char :=
  (List.range (b.toNat + 1 - a.toNat)).map fun k => Char.ofNat (a.toNat + k)

def characterClasses : List (String × List Char) :=
  [("[:lower:]", charsBetween 'a' 'z'), ("[:upper:]", charsBetween 'A' 'Z'),
    ("[:digit:]", charsBetween '0' '9'),
    ("[:alpha:]", charsBetween 'A' 'Z' ++ charsBetween 'a' 'z'),
    ("[:alnum:]", charsBetween '0' '9' ++ charsBetween 'A' 'Z' ++ charsBetween 'a' 'z'),
    ("[:space:]", ['\t', '\n', '\x0b', '\x0c', '\r', ' '])]

/-- The characters of a set as `tr` writes it. -/
def characterSet : Nat → List Char → List Char
  | 0, _ => []
  | _, [] => []
  | n + 1, cs =>
    match characterClasses.find? fun c => c.1.toList.isPrefixOf cs with
    | some (name, members) => members ++ characterSet n (cs.drop name.length)
    | none =>
      let (c, rest) : Char × List Char := match cs with
        | '\\' :: d :: more =>
          if '0' ≤ d && d ≤ '7' then
            let ds := ((d :: more).take 3).takeWhile fun c => '0' ≤ c && c ≤ '7'
            (Char.ofNat (ds.foldl (fun n d => n * 8 + (d.toNat - 48)) 0), (d :: more).drop ds.length)
          else (if d = 'n' then '\n' else if d = 't' then '\t' else if d = 'r' then '\r' else d, more)
        | c :: more => (c, more)
        | [] => (' ', [])
      match rest with
      | '-' :: d :: more => charsBetween c d ++ characterSet n more
      | more => c :: characterSet n more

/-- A text with each run of a character of a set cut to one. -/
def squeeze (set : List Char) : List Char → List Char
  | [] => []
  | [c] => [c]
  | c :: d :: cs => if c = d && c ∈ set then squeeze set (d :: cs) else c :: squeeze set (d :: cs)

def tr (s : State) (args : List String) : State × Nat :=
  let (options, sets) := splitOptions args
  let members (k : Nat) : List Char :=
    let text := sets.getD k ""
    characterSet (text.length + 1) text.toList
  let (from_, to_) := (members 0, members 1)
  let chosen (c : Char) : Bool := ('c' ∈ options || 'C' ∈ options) != decide (c ∈ from_)
  let (s, text) := s.readAll
  let translated : List Char :=
    if 'd' ∈ options then text.toList.filter fun c => !chosen c
    else if to_.isEmpty then text.toList
    else text.toList.map fun c =>
      if !chosen c then c
      else if 'c' ∈ options || 'C' ∈ options then to_.getLastD c
      else (to_[from_.idxOf c]?).getD (to_.getLastD c)
  let squeezed :=
    if 's' ∈ options then squeeze (if to_.isEmpty || 'd' ∈ options then from_ else to_) translated
    else translated
  match sets with
  | [] => s.misuse "tr" "missing operand"
  | [one] =>
    if 'd' ∈ options || 's' ∈ options then (s.out (String.ofList squeezed), 0)
    else
      let s := s.warn "tr" ("missing operand after " ++ quoted one)
      (s.err ("Two strings must be given when translating.\n" ++
        "Try 'tr --help' for more information.\n"), 1)
  | _ => (s.out (String.ofList squeezed), 0)

/-! ## Search and replacement -/

def grep (s : State) (args : List String) : State × Nat :=
  let (options, rest) := splitOptions args
  let regex := Regex.read (rest.headD "")
  let needle := (rest.headD "").toList
  let hits (line : String) : Bool :=
    let found :=
      if 'F' ∈ options then needle.isEmpty || (List.range line.length).any fun k =>
        needle.isPrefixOf (line.toList.drop k)
      else regex.isIn line.toList
    ('v' ∈ options) != found
  let (s, texts, status) := inputs "grep" s (rest.drop 1)
  let lines := (texts.flatMap fun t => linesOfText t.2).filter hits
  let s := if 'q' ∈ options then s
    else if 'c' ∈ options then s.out (toString lines.length ++ "\n")
    else s.out (unlines lines)
  (s, if status ≠ 0 then 2 else if lines.isEmpty then 1 else 0)

/-- Which lines an editing command is for. -/
inductive Address where
  | all
  | line (n : Nat)
  | last
  | found (r : Regex)

/-- What an editing command does. -/
inductive Edit where
  | replace (r : Regex) (by_ : List Char) (all print : Bool)
  | delete
  | print
  | quit

/-- The text up to a delimiter, without the backslashes before delimiters. -/
def untilDelimiter (d : Char) : List Char → List Char × List Char
  | [] => ([], [])
  | '\\' :: c :: cs =>
    let (a, rest) := untilDelimiter d cs
    (if c = d then c :: a else '\\' :: c :: a, rest)
  | c :: cs =>
    if c = d then ([], cs)
    else
      let (a, rest) := untilDelimiter d cs
      (c :: a, rest)

def readAddress (cs : List Char) : Address × List Char :=
  match cs with
  | '$' :: rest => (.last, rest)
  | '/' :: rest =>
    let (r, rest) := untilDelimiter '/' rest
    (.found (Regex.read (String.ofList r)), rest)
  | cs =>
    let ds := cs.takeWhile Char.isDigit
    if ds.isEmpty then (.all, cs)
    else (.line (numberIn (String.ofList ds)), cs.drop ds.length)

/-- The commands of an editing script. -/
def readEdits : Nat → List Char → List (Address × Edit)
  | 0, _ => []
  | n + 1, cs =>
    match cs.dropWhile fun c => c ∈ [' ', ';', '\n', '\t'] with
    | [] => []
    | cs =>
      let (address, cs) := readAddress cs
      match cs.dropWhile (· == ' ') with
      | 's' :: d :: rest =>
        let (pattern, rest) := untilDelimiter d rest
        let (by_, rest) := untilDelimiter d rest
        let flags := rest.takeWhile fun c => c ∈ ['g', 'p']
        (address, .replace (Regex.read (String.ofList pattern)) by_ ('g' ∈ flags) ('p' ∈ flags)) ::
          readEdits n (rest.drop flags.length)
      | 'd' :: rest => (address, .delete) :: readEdits n rest
      | 'p' :: rest => (address, .print) :: readEdits n rest
      | 'q' :: rest => (address, .quit) :: readEdits n rest
      | _ => []

/-- A line while it is edited. -/
structure Edited where
  text : List Char
  printed : List String
  deleted : Bool
  quit : Bool

def applyEdit (number total : Nat) (e : Edited) (command : Address × Edit) : Edited :=
  let chosen := match command.1 with
    | .all => true
    | .line n => n = number
    | .last => number = total
    | .found r => r.isIn e.text
  if e.deleted || e.quit || !chosen then e
  else match command.2 with
    | .delete => { e with deleted := true }
    | .print => { e with printed := e.printed ++ [String.ofList e.text] }
    | .quit => { e with quit := true }
    | .replace r by_ all print =>
      if !r.isIn e.text then e
      else
        let text := r.replaceFrom (fun found => Regex.substitute by_ found) all
          (e.text.length + 1) 0 e.text
        { e with
          text := text
          printed := if print then e.printed ++ [String.ofList text] else e.printed }

/-- The lines that an editing script makes of some lines. -/
def editLines (silent : Bool) (commands : List (Address × Edit)) (total : Nat) :
    Nat → List String → List String
  | _, [] => []
  | number, line :: lines =>
    let e := commands.foldl (applyEdit number total) ⟨line.toList, [], false, false⟩
    e.printed ++ (if silent || e.deleted then [] else [String.ofList e.text]) ++
      if e.quit then [] else editLines silent commands total (number + 1) lines

/-- The scripts of an editor's arguments, whether it prints only on demand, and its files. -/
def sedArguments : List String → Bool → List String → List String × Bool × List String
  | "-n" :: rest, _, scripts => sedArguments rest true scripts
  | "-e" :: script :: rest, silent, scripts => sedArguments rest silent (scripts ++ [script])
  | args, silent, [] => (args.take 1, silent, args.drop 1)
  | args, silent, scripts => (scripts, silent, args)

def sed (s : State) (args : List String) : State × Nat :=
  let (scripts, silent, files) := sedArguments args false []
  if scripts.isEmpty then (s.warn "sed" "no script specified", 1)
  else
    let text := "\n".intercalate scripts
    let commands := readEdits (text.length + 1) text.toList
    let (s, texts, status) := inputs "sed" s files
    let whole := String.join (texts.map Prod.snd)
    let lines := linesOfText whole
    let edited := unlines (editLines silent commands lines.length 1 lines)
    let edited := if whole.endsWith "\n" || edited = "" then edited
      else String.ofList edited.toList.dropLast
    (s.out edited, if status = 0 then 0 else 2)

end OnDemand.Rehearsal.Shell
