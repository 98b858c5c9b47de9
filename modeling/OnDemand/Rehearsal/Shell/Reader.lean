import OnDemand.Rehearsal.Shell.Script

/-!
# Reading shell scripts

A script is read command by command, so that those before a mistake can run. Every reader takes a
number that bounds how deep and how long the script is; the length of its text is enough.
-/

namespace OnDemand.Rehearsal.Shell

/-- The rest of a script and the line on which it begins. -/
structure Cursor where
  rest : List Char
  line : Nat
  /-- How many lines were taken out after this one. -/
  taken : Nat := 0

abbrev Reading := StateT Cursor (Except ScriptError)

namespace Reading

def peek : Reading (List Char) := do
  return (← get).rest

/-- Goes on behind so many characters. -/
def skip (n : Nat) : Reading Unit :=
  modify fun c =>
    let lines := (c.rest.take n).count '\n'
    if lines = 0 then { c with rest := c.rest.drop n }
    else ⟨c.rest.drop n, c.line + lines + c.taken, 0⟩

def fail {α : Type} (message : String) : Reading α := do
  throw ⟨(← get).line, "Syntax error: " ++ message⟩

/-- Takes the characters of a class. -/
def takeWhile (p : Char → Bool) : Reading String := do
  let cs := (← peek).takeWhile p
  skip cs.length
  return String.ofList cs

end Reading

open Reading

/-! ## Characters -/

/-- The characters that end a word. -/
def isMeta (c : Char) : Bool :=
  c ∈ [' ', '\t', '\n', ';', '&', '|', '<', '>', '(', ')']

def isNameStart (c : Char) : Bool :=
  c.isAlpha || c == '_'

def isNameChar (c : Char) : Bool :=
  c.isAlphanum || c == '_'

def isName (s : String) : Bool :=
  match s.toList with
  | [] => false
  | c :: cs => isNameStart c && cs.all isNameChar

/-- The words with a meaning of their own where a command begins. -/
def reservedWords : List String :=
  ["if", "then", "else", "elif", "fi", "do", "done", "case", "esac", "while", "until", "for", "in",
    "\x7b", "\x7d", "!"]

/-- Skips spaces, joined lines, and a comment. -/
def skipBlanks : Nat → Reading Unit
  | 0 => return
  | n + 1 => do
    match ← peek with
    | ' ' :: _ => skip 1; skipBlanks n
    | '\t' :: _ => skip 1; skipBlanks n
    | '\\' :: '\n' :: _ => skip 2; skipBlanks n
    | '#' :: cs => skip (1 + (cs.takeWhile (· ≠ '\n')).length)
    | _ => return

def skipLines : Nat → Reading Unit
  | 0 => return
  | n + 1 => do
    skipBlanks (n + 1)
    match ← peek with
    | '\n' :: _ => skip 1; skipLines n
    | _ => return

/-- The reserved word ahead, if one is. -/
def keyword? : Reading (Option String) := do
  let s := String.ofList ((← peek).takeWhile fun c => !isMeta c)
  return if s ∈ reservedWords then some s else none

/-- How what is ahead is named in an error. -/
def aheadText : Reading String := do
  match ← peek with
  | [] => return "end of file"
  | '\n' :: _ => return "newline"
  | ';' :: ';' :: _ => return "\";;\""
  | '&' :: '&' :: _ => return "\"&&\""
  | '|' :: '|' :: _ => return "\"||\""
  | c :: _ =>
    if isMeta c then return "\"" ++ String.ofList [c] ++ "\""
    match ← keyword? with
    | some k => return "\"" ++ k ++ "\""
    | none => return "word"

def unexpected {α : Type} (expecting : Option String) : Reading α := do
  let what := (← aheadText) ++ " unexpected"
  match expecting with
  | some e => fail (what ++ " (expecting \"" ++ e ++ "\")")
  | none => fail what

/-- Takes a reserved word. -/
def expectKeyword (n : Nat) (k : String) : Reading Unit := do
  skipLines n
  if (← keyword?) = some k then skip k.length else unexpected (some k)

/-! ## Words -/

/-- The text up to a character, which is taken too. -/
def untilChar (stop : Char) : Reading String := do
  let cs ← peek
  let body := cs.takeWhile (· ≠ stop)
  if body.length = cs.length then
    skip cs.length
    fail "Unterminated quoted string"
  skip (body.length + 1)
  return String.ofList body

def specialParameters : List Char :=
  ['@', '*', '#', '?', '-', '$', '!']

/-- The name of a parameter in braces. -/
def parameterName : Reading String := do
  match ← peek with
  | c :: _ =>
    if isNameStart c then takeWhile isNameChar
    else if c.isDigit then takeWhile Char.isDigit
    else if c ∈ specialParameters then
      skip 1
      return String.ofList [c]
    else fail "Bad substitution"
  | [] => fail "Missing '\x7d'"

/-- What is done with a parameter in braces. -/
def parameterUse : Reading (Option ParameterUse) := do
  let take (k : Nat) (u : ParameterUse) : Reading (Option ParameterUse) := do
    skip k
    return some u
  match ← peek with
  | '\x7d' :: _ => return none
  | ':' :: '-' :: _ => take 2 (.orDefault true)
  | ':' :: '=' :: _ => take 2 (.orAssign true)
  | ':' :: '+' :: _ => take 2 (.ifSet true)
  | ':' :: '?' :: _ => take 2 (.orFail true)
  | '-' :: _ => take 1 (.orDefault false)
  | '=' :: _ => take 1 (.orAssign false)
  | '+' :: _ => take 1 (.ifSet false)
  | '?' :: _ => take 1 (.orFail false)
  | '#' :: '#' :: _ => take 2 (.cutFront true)
  | '#' :: _ => take 1 (.cutFront false)
  | '%' :: '%' :: _ => take 2 (.cutBack true)
  | '%' :: _ => take 1 (.cutBack false)
  | _ => fail "Bad substitution"

/-- The number of a descriptor before a redirection, and the length of its text. -/
def descriptorAhead (cs : List Char) : Option Nat × Nat :=
  let ds := cs.takeWhile Char.isDigit
  match cs.drop ds.length with
  | c :: _ =>
    if (c = '<' ∨ c = '>') ∧ ds ≠ [] then
      (some (ds.foldl (fun n d => n * 10 + (d.toNat - 48)) 0), ds.length)
    else (none, 0)
  | [] => (none, 0)

/-- The name that a function definition ahead is for. -/
def functionAhead? (cs : List Char) : Option (String × Nat) :=
  let name := cs.takeWhile isNameChar
  let gap := (cs.drop name.length).takeWhile fun c => c == ' ' || c == '\t'
  match cs.drop (name.length + gap.length) with
  | '(' :: more =>
    let inner := more.takeWhile fun c => c == ' ' || c == '\t'
    match more.drop inner.length with
    | ')' :: _ =>
      if isName (String.ofList name) then
        some (String.ofList name, name.length + gap.length + inner.length + 2)
      else none
    | _ => none
  | _ => none

/-- The lines up to one that is equal to a text, and what follows it. -/
def takeHere (n : Nat) (delimiter : List Char) (dropTabs : Bool) (cs : List Char) :
    List Char × List Char :=
  match n with
  | 0 => ([], cs)
  | n + 1 =>
    let line := cs.takeWhile (· ≠ '\n')
    let rest := cs.drop (line.length + 1)
    let line := if dropTabs then line.dropWhile (· == '\t') else line
    if line = delimiter || cs = [] then ([], rest)
    else
      let (body, rest) := takeHere n delimiter dropTabs rest
      (line ++ '\n' :: body, rest)

/-- Whether a word has a quoted part. -/
def hasQuotes (w : Word) : Bool :=
  w.any fun
    | .quoted _ => true
    | _ => false

/-- The text of a word without expansions. -/
def plainText (w : Word) : String :=
  String.join (w.map fun
    | .text s => s
    | .quoted s => s
    | _ => "")

mutual

/-- The parts of a word up to a character that ends it. -/
def readWord : Nat → Reading Word
  | 0 => fail "too long"
  | n + 1 => do
    match ← peek with
    | [] => return []
    | '\\' :: '\n' :: _ => skip 2; readWord n
    | '\\' :: c :: _ => skip 2; return .quoted (String.ofList [c]) :: (← readWord n)
    | '\'' :: _ => skip 1; return .quoted (← untilChar '\'') :: (← readWord n)
    | '"' :: _ => skip 1; let q ← readQuoted n; return q ++ (← readWord n)
    | '$' :: _ => skip 1; return (← readDollar n false) :: (← readWord n)
    | '\x60' :: _ => skip 1; return (← readBackquoted n false) :: (← readWord n)
    | c :: _ =>
      if isMeta c then return []
      skip 1
      return .text (String.ofList [c]) :: (← readWord n)

/-- The parts within double quotes, with the closing quote. -/
def readQuoted (n : Nat) : Reading Word :=
  match n with
  | 0 => fail "too long"
  | n + 1 => do
    let parts ← readQuotedUntil n '"'
    return if parts.isEmpty then [.quoted ""] else parts

/-- The parts up to a character, in which only expansions and some backslashes count. -/
def readQuotedUntil (n : Nat) (stop : Char) : Reading Word :=
  match n with
  | 0 => fail "too long"
  | n + 1 => do
    match ← peek with
    | [] => if stop = '\x00' then return [] else fail "Unterminated quoted string"
    | '\\' :: '\n' :: _ => skip 2; readQuotedUntil n stop
    | '\\' :: c :: _ =>
      if c ∈ ['$', '\x60', '"', '\\'] || c = stop then
        skip 2
        return .quoted (String.ofList [c]) :: (← readQuotedUntil n stop)
      skip 1
      return .quoted "\\" :: (← readQuotedUntil n stop)
    | '$' :: _ => skip 1; return (← readDollar n true) :: (← readQuotedUntil n stop)
    | '\x60' :: _ => skip 1; return (← readBackquoted n true) :: (← readQuotedUntil n stop)
    | c :: _ =>
      skip 1
      if c = stop then return []
      return .quoted (String.ofList [c]) :: (← readQuotedUntil n stop)

/-- The expansion after a dollar sign. -/
def readDollar (n : Nat) (inQuotes : Bool) : Reading Part :=
  match n with
  | 0 => fail "too long"
  | n + 1 => do
    match ← peek with
    | '(' :: '(' :: _ => skip 2; return .arithmetic (← readArithmetic n 0) inQuotes
    | '(' :: _ =>
      skip 1
      let body ← readList n []
      skipLines n
      match ← peek with
      | ')' :: _ => skip 1; return .output body inQuotes
      | _ => unexpected (some ")")
    | '\x7b' :: '#' :: '\x7d' :: _ => skip 3; return .parameter "#" .plain [] inQuotes
    | '\x7b' :: '#' :: _ =>
      skip 2
      let name ← parameterName
      discard (untilChar '\x7d')
      return .parameter name .length [] inQuotes
    | '\x7b' :: _ =>
      skip 1
      let name ← parameterName
      match ← parameterUse with
      | none => skip 1; return .parameter name .plain [] inQuotes
      | some use =>
        let cuts := match use with
          | .cutFront _ => true
          | .cutBack _ => true
          | _ => false
        return .parameter name use (← readInBraces n (inQuotes && !cuts)) inQuotes
    | c :: _ =>
      if isNameStart c then return .parameter (← takeWhile isNameChar) .plain [] inQuotes
      if c.isDigit || c ∈ specialParameters then
        skip 1
        return .parameter (String.ofList [c]) .plain [] inQuotes
      return if inQuotes then .quoted "$" else .text "$"
    | [] => return if inQuotes then .quoted "$" else .text "$"

/-- The word of an expansion, up to the closing brace. -/
def readInBraces (n : Nat) (inQuotes : Bool) : Reading Word :=
  match n with
  | 0 => fail "too long"
  | n + 1 => do
    match ← peek with
    | [] => fail "Missing '\x7d'"
    | '\x7d' :: _ => skip 1; return []
    | '\\' :: c :: _ => skip 2; return .quoted (String.ofList [c]) :: (← readInBraces n inQuotes)
    | '\'' :: _ =>
      skip 1
      if inQuotes then return .quoted "'" :: (← readInBraces n inQuotes)
      return .quoted (← untilChar '\'') :: (← readInBraces n inQuotes)
    | '"' :: _ => skip 1; let q ← readQuoted n; return q ++ (← readInBraces n inQuotes)
    | '$' :: _ => skip 1; return (← readDollar n inQuotes) :: (← readInBraces n inQuotes)
    | '\x60' :: _ => skip 1; return (← readBackquoted n inQuotes) :: (← readInBraces n inQuotes)
    | c :: _ =>
      skip 1
      let s := String.ofList [c]
      return (if inQuotes then .quoted s else .text s) :: (← readInBraces n inQuotes)

/-- The commands between backquotes. -/
def readBackquoted (n : Nat) (inQuotes : Bool) : Reading Part :=
  match n with
  | 0 => fail "too long"
  | n + 1 => do
    let body ← readBackquotedText n inQuotes
    let outer ← get
    match (readList n []).run ⟨body, outer.line, 0⟩ with
    | .ok (commands, _) => return .output commands inQuotes
    | .error e => throw e

/-- The text between backquotes, without the backslashes that count only there. -/
def readBackquotedText (n : Nat) (inQuotes : Bool) : Reading (List Char) :=
  match n with
  | 0 => fail "too long"
  | n + 1 => do
    match ← peek with
    | [] => fail "EOF in backquote substitution"
    | '\x60' :: _ => skip 1; return []
    | '\\' :: c :: _ =>
      skip 2
      let rest ← readBackquotedText n inQuotes
      return if c ∈ ['$', '\x60', '\\'] || (inQuotes && c = '"') then c :: rest
        else '\\' :: c :: rest
    | c :: _ => skip 1; return c :: (← readBackquotedText n inQuotes)

/-- An arithmetic expression up to its closing brackets. -/
def readArithmetic (n : Nat) (depth : Nat) : Reading Word :=
  match n with
  | 0 => fail "too long"
  | n + 1 => do
    match ← peek with
    | [] => fail "Missing '))'"
    | '$' :: _ => skip 1; return (← readDollar n true) :: (← readArithmetic n depth)
    | '\x60' :: _ => skip 1; return (← readBackquoted n true) :: (← readArithmetic n depth)
    | '(' :: _ => skip 1; return .quoted "(" :: (← readArithmetic n (depth + 1))
    | ')' :: ')' :: _ =>
      if depth = 0 then
        skip 2
        return []
      skip 1
      return .quoted ")" :: (← readArithmetic n (depth - 1))
    | ')' :: _ =>
      if depth = 0 then fail "Missing '))'"
      skip 1
      return .quoted ")" :: (← readArithmetic n (depth - 1))
    | c :: _ => skip 1; return .quoted (String.ofList [c]) :: (← readArithmetic n depth)

/-- A redirection, if one is ahead. -/
def readRedirect? (n : Nat) : Reading (Option Redirect) :=
  match n with
  | 0 => fail "too long"
  | n + 1 => do
    let (number, width) := descriptorAhead (← peek)
    let target (k : Nat) (standard : Nat) (kind : RedirectKind) : Reading (Option Redirect) := do
      skip (width + k)
      skipBlanks n
      let w ← readWord n
      if w.isEmpty then unexpected none
      return some (.mk (number.getD standard) kind w)
    match (← peek).drop width with
    | '<' :: '<' :: '-' :: _ =>
      skip (width + 3)
      some <$> readHere n (number.getD 0) true
    | '<' :: '<' :: _ =>
      skip (width + 2)
      some <$> readHere n (number.getD 0) false
    | '<' :: '&' :: _ => target 2 0 .duplicate
    | '<' :: '>' :: _ => target 2 0 .input
    | '<' :: _ => target 1 0 .input
    | '>' :: '>' :: _ => target 2 1 .append
    | '>' :: '&' :: _ => target 2 1 .duplicate
    | '>' :: '|' :: _ => target 2 1 .output
    | '>' :: _ => target 1 1 .output
    | _ => return none

/-- A text in the script itself: it begins after the line and ends with a line of its own. -/
def readHere (n : Nat) (descriptor : Nat) (dropTabs : Bool) : Reading Redirect :=
  match n with
  | 0 => fail "too long"
  | n + 1 => do
    skipBlanks n
    let w ← readWord n
    let c ← get
    let line := c.rest.takeWhile (· ≠ '\n')
    let (body, rest) := takeHere n (plainText w).toList dropTabs (c.rest.drop (line.length + 1))
    let taken := (c.rest.drop (line.length + 1)).count '\n' - rest.count '\n'
    set (⟨line ++ '\n' :: rest, c.line, c.taken + taken⟩ : Cursor)
    if hasQuotes w then return .mk descriptor .text [.quoted (String.ofList body)]
    match (readQuotedUntil n '\x00').run ⟨body, c.line, 0⟩ with
    | .ok (parts, _) => return .mk descriptor .text parts
    | .error e => throw e

def readRedirects (n : Nat) : Reading (List Redirect) :=
  match n with
  | 0 => fail "too long"
  | n + 1 => do
    skipBlanks n
    match ← readRedirect? n with
    | some r => return r :: (← readRedirects n)
    | none => return []

/-- The assignments, words and redirections of a simple command. -/
def readSimple (n : Nat) (started : Bool) :
    Reading (List (String × Word) × List Word × List Redirect) :=
  match n with
  | 0 => fail "too long"
  | n + 1 => do
    skipBlanks n
    match ← readRedirect? n with
    | some r =>
      let (as, ws, rs) ← readSimple n started
      return (as, ws, r :: rs)
    | none =>
      let cs ← peek
      let name := cs.takeWhile isNameChar
      if !started && isName (String.ofList name) && (cs.drop name.length).head? == some '=' then
        skip (name.length + 1)
        let value ← readWord n
        let (as, ws, rs) ← readSimple n false
        return ((String.ofList name, value) :: as, ws, rs)
      let w ← readWord n
      if w.isEmpty then return ([], [], [])
      let (as, ws, rs) ← readSimple n true
      return (as, w :: ws, rs)

/-- Commands up to one of some reserved words, a closing bracket, or the end. -/
def readList (n : Nat) (stops : List String) : Reading (List Command) :=
  match n with
  | 0 => fail "too long"
  | n + 1 => do
    skipLines n
    match ← peek with
    | [] => return []
    | ')' :: _ => return []
    | ';' :: ';' :: _ => return []
    | _ =>
      if ((← keyword?).any fun k => k ∈ stops) then return []
      let c ← readAndOr n
      skipBlanks n
      match ← peek with
      | ';' :: ';' :: _ => return [c]
      | ';' :: _ => skip 1; return c :: (← readList n stops)
      | '&' :: _ => skip 1; return c :: (← readList n stops)
      | '\n' :: _ => skip 1; return c :: (← readList n stops)
      | [] => return [c]
      | ')' :: _ => return [c]
      | _ => unexpected none

def readAndOr (n : Nat) : Reading Command :=
  match n with
  | 0 => fail "too long"
  | n + 1 => do
    let c ← readPipeline n
    readAndOrAfter n c

def readAndOrAfter (n : Nat) (c : Command) : Reading Command :=
  match n with
  | 0 => fail "too long"
  | n + 1 => do
    skipBlanks n
    match ← peek with
    | '&' :: '&' :: _ =>
      skip 2
      skipLines n
      let d ← readPipeline n
      readAndOrAfter n (.both c d)
    | '|' :: '|' :: _ =>
      skip 2
      skipLines n
      let d ← readPipeline n
      readAndOrAfter n (.either c d)
    | _ => return c

def readPipeline (n : Nat) : Reading Command :=
  match n with
  | 0 => fail "too long"
  | n + 1 => do
    skipBlanks n
    if (← keyword?) = some "!" then
      skip 1
      return .negated (← readPipeline n)
    let stages ← readStages n
    match stages with
    | [c] => return c
    | cs => return .pipeline cs

def readStages (n : Nat) : Reading (List Command) :=
  match n with
  | 0 => fail "too long"
  | n + 1 => do
    let c ← readCommand n
    skipBlanks n
    match ← peek with
    | '|' :: '|' :: _ => return [c]
    | '|' :: _ =>
      skip 1
      skipLines n
      return c :: (← readStages n)
    | _ => return [c]

def readCommand (n : Nat) : Reading Command :=
  match n with
  | 0 => fail "too long"
  | n + 1 => do
    skipBlanks n
    let line := (← get).line
    match ← keyword? with
    | some "\x7b" =>
      skip 1
      let body ← readList n ["\x7d"]
      expectKeyword n "\x7d"
      withRedirects n line (.group body)
    | some "if" =>
      skip 2
      let c ← readChoice n
      withRedirects n line c
    | some "while" =>
      skip 5
      let c ← readLoop n true
      withRedirects n line c
    | some "until" =>
      skip 5
      let c ← readLoop n false
      withRedirects n line c
    | some "for" =>
      skip 3
      let c ← readEach n
      withRedirects n line c
    | some "case" =>
      skip 4
      let c ← readSelect n
      withRedirects n line c
    | some _ => unexpected none
    | none =>
      match ← peek with
      | '(' :: _ =>
        skip 1
        let body ← readList n []
        match ← peek with
        | ')' :: _ =>
          skip 1
          withRedirects n line (.subshell body)
        | _ => unexpected (some ")")
      | cs =>
        match functionAhead? cs with
        | some (name, width) =>
          skip width
          skipLines n
          return .define name (← readCommand n)
        | none =>
          let (as, ws, rs) ← readSimple n false
          if as.isEmpty && ws.isEmpty && rs.isEmpty then unexpected none
          return .simple line as ws rs

def withRedirects (n : Nat) (line : Nat) (c : Command) : Reading Command :=
  match n with
  | 0 => fail "too long"
  | n + 1 => do
    let rs ← readRedirects n
    return if rs.isEmpty then c else .redirected line c rs

/-- A choice after its first word. -/
def readChoice (n : Nat) : Reading Command :=
  match n with
  | 0 => fail "too long"
  | n + 1 => do
    let condition ← readList n ["then"]
    expectKeyword n "then"
    let yes ← readList n ["else", "elif", "fi"]
    match ← keyword? with
    | some "elif" =>
      skip 4
      return .choice condition yes [← readChoice n]
    | some "else" =>
      skip 4
      let no ← readList n ["fi"]
      expectKeyword n "fi"
      return .choice condition yes no
    | _ =>
      expectKeyword n "fi"
      return .choice condition yes []

/-- The commands of a loop between its words. -/
def readBody (n : Nat) : Reading (List Command) :=
  match n with
  | 0 => fail "too long"
  | n + 1 => do
    expectKeyword n "do"
    let body ← readList n ["done"]
    expectKeyword n "done"
    return body

def readLoop (n : Nat) (whileTrue : Bool) : Reading Command :=
  match n with
  | 0 => fail "too long"
  | n + 1 => do
    let condition ← readList n ["do"]
    return .loop whileTrue condition (← readBody n)

def readEach (n : Nat) : Reading Command :=
  match n with
  | 0 => fail "too long"
  | n + 1 => do
    skipBlanks n
    let name ← takeWhile isNameChar
    if !isName name then fail "Bad for loop variable"
    skipLines n
    if (← keyword?) = some "in" then
      skip 2
      let (_, words, _) ← readSimple n true
      skipBlanks n
      match ← peek with
      | ';' :: _ => skip 1
      | _ => skipLines n
      return .each name (some words) (← readBody n)
    match ← peek with
    | ';' :: _ => skip 1
    | _ => skipLines n
    return .each name none (← readBody n)

def readSelect (n : Nat) : Reading Command :=
  match n with
  | 0 => fail "too long"
  | n + 1 => do
    skipBlanks n
    let w ← readWord n
    expectKeyword n "in"
    return .select w (← readArms n)

def readArms (n : Nat) : Reading (List (List Word × List Command)) :=
  match n with
  | 0 => fail "too long"
  | n + 1 => do
    skipLines n
    if (← keyword?) = some "esac" then
      skip 4
      return []
    match ← peek with
    | '(' :: _ => skip 1
    | _ => skip 0
    let patterns ← readPatterns n
    let body ← readList n ["esac"]
    match ← peek with
    | ';' :: ';' :: _ =>
      skip 2
      return (patterns, body) :: (← readArms n)
    | _ =>
      expectKeyword n "esac"
      return [(patterns, body)]

def readPatterns (n : Nat) : Reading (List Word) :=
  match n with
  | 0 => fail "too long"
  | n + 1 => do
    skipBlanks n
    let w ← readWord n
    if w.isEmpty then unexpected none
    skipBlanks n
    match ← peek with
    | '|' :: _ => skip 1; return w :: (← readPatterns n)
    | ')' :: _ => skip 1; return [w]
    | _ => unexpected (some ")")

end

/-- The next whole line of commands, or none at the end of the script. -/
def readLine (n : Nat) : Reading (Option (List Command)) := do
  skipLines n
  match ← peek with
  | [] => return none
  | _ => some <$> readLineFrom n
where
  /-- Commands up to the end of the line on which the last of them ends. -/
  readLineFrom : Nat → Reading (List Command)
    | 0 => fail "too long"
    | n + 1 => do
      let c ← readAndOr n
      skipBlanks n
      match ← peek with
      | ';' :: ';' :: _ => unexpected none
      | ';' :: _ => skip 1; more n c
      | '&' :: _ => skip 1; more n c
      | '\n' :: _ => skip 1; return [c]
      | [] => return [c]
      | _ => unexpected none
  more (n : Nat) (c : Command) : Reading (List Command) :=
    match n with
    | 0 => return [c]
    | n + 1 => do
      skipBlanks n
      match ← peek with
      | '\n' :: _ => skip 1; return [c]
      | [] => return [c]
      | _ => return c :: (← readLineFrom n)

end OnDemand.Rehearsal.Shell
