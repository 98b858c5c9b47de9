import OnDemand.Duration
import OnDemand.Program
import OnDemand.Rehearsal.Shell.Arithmetic
import OnDemand.Rehearsal.Shell.Fields
import OnDemand.Rehearsal.Shell.Filters
import OnDemand.Rehearsal.Shell.Printf
import OnDemand.Rehearsal.Shell.Test

/-!
# Running shell scripts

Commands run one after the other, also those of a pipeline: each gets what the one before it wrote.
Every run takes a number that bounds how many commands it goes through.
-/

namespace OnDemand.Rehearsal.Shell

namespace State

/-- What a parameter that is not a variable stands for. -/
def special? (s : State) (name : String) : Option String :=
  match name with
  | "#" => some (toString s.parameters.length)
  | "?" => some (toString s.status)
  | "$" => some "4000"
  | "!" => none
  | "-" => some (if s.stopAtErrors then "e" else "")
  | "0" => some s.name
  | _ =>
    if name.toList.all Char.isDigit then
      s.parameters[name.toNat?.getD 0 - 1]?
    else none

/-- The value of a parameter, if it is set. -/
def value? (s : State) (name : String) : Option String :=
  if isName name then s.binding? name
  else if name = "@" || name = "*" then
    if s.parameters.isEmpty then none else some (" ".intercalate s.parameters)
  else s.special? name

/-- What stands between parameters that are joined. -/
def joint (s : State) : String :=
  match s.binding? "IFS" with
  | none => " "
  | some ifs => String.ofList (ifs.toList.take 1)

/-- The items of a parameter. -/
def parameterItems (s : State) (name : String) (inQuotes : Bool) : List Item :=
  let apart (f : String → List Item) : List Item :=
    match s.parameters with
    | [] => []
    | p :: ps => f p ++ ps.flatMap fun q => .separation :: f q
  match name, inQuotes with
  | "@", true => apart (Item.ofValue true)
  | "@", false => apart (Item.ofValue false)
  | "*", true => Item.ofValue true (s.joint.intercalate s.parameters)
  | "*", false => apart (Item.ofValue false)
  | _, _ => Item.ofValue inQuotes ((s.value? name).getD "")

/-- Notes an expansion that failed, with a message. -/
def failExpansion (s : State) (message : String) : State :=
  { s.complain message with failing := some 2 }

/-- The state around after what ran inside a subshell. -/
def afterSubshell (outer inner : State) : State :=
  { outer with
    tree := inner.tree, streams := inner.streams, status := inner.status, waited := inner.waited,
    trail := inner.trail }

/-- Splits a line over variables; the last takes all that is left. -/
def assignFields (s : State) (names : List String) (line : String) (raw : Bool) : State :=
  let ifs := s.separators
  let white (c : Char) : Bool := c ∈ ifs && isWhiteSeparator c
  let rec unslash : List Char → List (Char × Bool)
    | '\\' :: c :: cs => (c, true) :: unslash cs
    | c :: cs => (c, false) :: unslash cs
    | [] => []
  let chars := if raw then line.toList.map fun c => (c, false) else unslash line.toList
  let isWhite (p : Char × Bool) : Bool := !p.2 && white p.1
  let isSeparator (p : Char × Bool) : Bool := !p.2 && p.1 ∈ ifs
  let text (f : List (Char × Bool)) : String := String.ofList (f.map Prod.fst)
  let rec go : List String → List (Char × Bool) → State → State
    | [], _, s => s
    | [v], cs, s =>
      let cs := ((cs.dropWhile isWhite).reverse.dropWhile isWhite).reverse
      s.assign v (text cs)
    | v :: vs, cs, s =>
      let cs := cs.dropWhile isWhite
      let field := cs.takeWhile fun p => !isSeparator p
      let rest := (cs.drop field.length).dropWhile isWhite
      let rest := match rest with
        | p :: more =>
          if isSeparator p then more else if field.length = cs.length then [] else p :: more
        | [] => []
      go vs rest (s.assign v (text field))
  go names chars s

/-- Reads a line into variables. -/
def read (s : State) (args : List String) : State × Nat :=
  let raw := args.head? == some "-r"
  let names := if raw then args.drop 1 else args
  let rec joined : Nat → State → State × String × Bool
    | 0, s => (s, "", false)
    | n + 1, s =>
      let (s, line, whole) := s.readLine
      let slashes := (line.toList.reverse.takeWhile (· == '\\')).length
      if !raw && whole && slashes % 2 = 1 then
        let (s, more, whole) := joined n s
        (s, String.ofList line.toList.dropLast ++ more, whole)
      else (s, line, whole)
  let (s, line, whole) := joined 1000 s
  let names := if names.isEmpty then ["REPLY"] else names
  (s.assignFields names line raw, if whole then 0 else 1)

/-- Goes to a directory. -/
def changeDirectory (s : State) (args : List String) : State × Nat :=
  let target := args.headD ((s.binding? "HOME").getD "")
  if target = "" then (s, 0)
  else match s.tree.look s.cwd (State.path target) with
  | .ok (l, .dir) =>
    let there := { s with cwd := l }
    ((there.assign "OLDPWD" s.cwdText).assign "PWD" there.cwdText, 0)
  | _ => s.refuse "cd" ("can't cd to " ++ target)

end State

/-! ## Utilities -/

/-- Does nothing, with a status. -/
def idle (status : Nat) (s : State) (_ : List String) : State × Nat :=
  (s, status)

def pwd (s : State) (_ : List String) : State × Nat :=
  (s.out (s.cwdText ++ "\n"), 0)

/-- The nanoseconds of an interval: a decimal number of seconds, minutes, hours or days. -/
def interval? (arg : String) : Option Nat :=
  let cs := arg.toList
  let (number, scale) := match cs.reverse with
    | 's' :: rest => (rest.reverse, nanosPerSecond)
    | 'm' :: rest => (rest.reverse, 60 * nanosPerSecond)
    | 'h' :: rest => (rest.reverse, 3600 * nanosPerSecond)
    | 'd' :: rest => (rest.reverse, 86400 * nanosPerSecond)
    | _ => (cs, nanosPerSecond)
  let whole := number.takeWhile Char.isDigit
  let after := number.drop whole.length
  let value (ds : List Char) : Nat := ds.foldl (fun n c => n * 10 + (c.toNat - 48)) 0
  match after with
  | [] => if whole.isEmpty then none else some (value whole * scale)
  | '.' :: decimals =>
    if decimals.all Char.isDigit && !(whole.isEmpty && decimals.isEmpty) then
      some (value (whole ++ decimals) * scale / Nat.pow 10 decimals.length)
    else none
  | _ => none

/-- Waits for the sum of some intervals. -/
def sleep (s : State) (args : List String) : State × Nat :=
  let hint := "Try 'sleep --help' for more information.\n"
  match args.find? fun a => (interval? a).isNone with
  | some a => (s.err ("sleep: invalid time interval '" ++ a ++ "'\n" ++ hint), 1)
  | none =>
    if args.isEmpty then (s.err ("sleep: missing operand\n" ++ hint), 1)
    else
      let till := s.waited + (args.filterMap interval?).foldl (· + ·) 0
      ({ s with waited := till, trail := (till, s.tree) :: s.trail }, 0)

/-- What a name runs, within the shell or beside it. -/
def utility? (name : String) : Option (State → List String → State × Nat) :=
  match name with
  | "true" => some (idle 0)
  | "false" => some (idle 1)
  | "sleep" => some sleep
  | "echo" => some echo
  | "printf" => some printf
  | "test" => some (Test.run "test")
  | "[" => some (Test.run "[")
  | "pwd" => some pwd
  | "cat" => some cat
  | "mkdir" => some mkdir
  | "touch" => some touch
  | "rm" => some rm
  | "cp" => some (copyOrMove "cp" false)
  | "mv" => some (copyOrMove "mv" true)
  | "ls" => some ls
  | "find" => some find
  | "dirname" => some dirname
  | "basename" => some basename
  | "sort" => some sort
  | "tr" => some tr
  | "sed" => some sed
  | "grep" => some grep
  | _ => none

/-- The utilities that are only part of a shell. -/
def builtin? (name : String) : Option (State → List String → State × Nat) :=
  match name with
  | ":" => some (idle 0)
  | "cd" => some State.changeDirectory
  | "read" => some State.read
  | "umask" => some (idle 0)
  | "wait" => some (idle 0)
  | "trap" => some (idle 0)
  | _ => none

/-- The commands whose mistakes end the script. -/
def specialCommands : List String :=
  [":", ".", "break", "continue", "eval", "exec", "exit", "export", "readonly", "return", "set",
    "shift", "times", "trap", "unset"]

/-- The signal that the arguments of `kill` send to this shell, if they do. -/
def signalSent (args : List String) : Option Nat :=
  let number (name : String) : Option Nat :=
    match name.toNat? with
    | some n => some n
    | none => signals.lookup (String.ofList (if name.startsWith "SIG" then name.toList.drop 3
        else name.toList))
  match args with
  | ["-s", name, "4000"] => number name
  | [option, "4000"] =>
    match option.toList with
    | '-' :: name => number (String.ofList name)
    | _ => none
  | ["4000"] => some 15
  | _ => none

/-! ## Expansion and execution -/

/-- Continues unless a command ended the script. -/
def andThen (r : State × Flow) (f : State → State × Flow) : State × Flow :=
  match r with
  | (s, .go) => f s
  | r => r

/-- Ends a script at a command that failed, where it is to stop at errors. -/
def checked (tested : Bool) (s : State) : State × Flow :=
  if s.stopAtErrors && !tested && s.status ≠ 0 then (s, .exit s.status) else (s, .go)

/-- How a loop goes on after its body. -/
def afterBody (flow : Flow) : Option Flow :=
  match flow with
  | .leave (n + 2) => some (.leave (n + 1))
  | .leave _ => some .go
  | .next (n + 2) => some (.next (n + 1))
  | .next _ => none
  | .go => none
  | f => some f

mutual

/-- The items of a part of a word. -/
def expandPart (n : Nat) (s : State) (p : Part) : State × List Item :=
  match n with
  | 0 => (s, [])
  | n + 1 =>
    match p with
    | .text t => (s, Item.ofText .script t)
    | .quoted t => (s, .quotes :: Item.ofText .quoted t)
    | .output body inQuotes =>
      let (inner, i) := s.opened (.buffer "")
      let (inner, flow) := runList n (inner.connect 1 i) false body
      let inner := match flow with
        | .exit k => { inner with status := k }
        | .return_ k => { inner with status := k }
        | _ => inner
      let text := String.ofList (((inner.written i).toList.filter (· ≠ '\x00')).reverse.dropWhile
        (· == '\n')).reverse
      let after := s.afterSubshell inner
      let after := match flow with
        | .killed k => { after with failing := some (128 + k) }
        | _ => after
      ({ after with taken := some inner.status }, Item.ofValue inQuotes text)
    | .arithmetic e inQuotes =>
      let (s, items) := expandParts n s e
      match Arithmetic.evaluate (fun v => (s.binding? v).getD "0") (Item.text items).toList with
      | some k => (s, Item.ofValue inQuotes (toString k))
      | none => (s.failExpansion "arithmetic expression", [])
    | .parameter name use word inQuotes =>
      let value := s.value? name
      let missing (colon : Bool) : Bool := value.isNone || (colon && value == some "")
      match use with
      | .plain =>
        if s.stopAtUnset && value.isNone && name ≠ "@" && name ≠ "*" then
          (s.failExpansion (name ++ ": parameter not set"), [])
        else (s, s.parameterItems name inQuotes)
      | .length => (s, Item.ofValue inQuotes (toString (value.getD "").length))
      | .orDefault colon =>
        if missing colon then expandParts n s word else (s, s.parameterItems name inQuotes)
      | .ifSet colon => if missing colon then (s, []) else expandParts n s word
      | .orAssign colon =>
        if missing colon then
          let (s, items) := expandParts n s word
          (s.assign name (Item.text items), Item.ofValue inQuotes (Item.text items))
        else (s, s.parameterItems name inQuotes)
      | .orFail colon =>
        if missing colon then
          let (s, items) := expandParts n s word
          let text := Item.text items
          (s.failExpansion (name ++ ": " ++ if text = "" then "parameter not set" else text), [])
        else (s, s.parameterItems name inQuotes)
      | .cutFront longest =>
        let (s, items) := expandParts n s word
        (s, Item.ofValue inQuotes (String.ofList
          (Glob.cutFront (Glob.read (Item.marked items)) longest (value.getD "").toList)))
      | .cutBack longest =>
        let (s, items) := expandParts n s word
        (s, Item.ofValue inQuotes (String.ofList
          (Glob.cutBack (Glob.read (Item.marked items)) longest (value.getD "").toList)))

def expandParts (n : Nat) (s : State) (w : Word) : State × List Item :=
  match n with
  | 0 => (s, [])
  | n + 1 =>
    match w with
    | [] => (s, [])
    | p :: ps =>
      let (s, front) := expandPart n s p
      let (s, rest) := expandParts n s ps
      (s, front ++ rest)

/-- The texts that words stand for. -/
def expandWords (n : Nat) (s : State) (ws : List Word) : State × List String :=
  match n with
  | 0 => (s, [])
  | n + 1 =>
    match ws with
    | [] => (s, [])
    | w :: ws =>
      let (s, items) := expandParts n s w
      let texts := (splitFields s.separators items none false).flatMap s.fieldTexts
      let (s, more) := expandWords n s ws
      (s, texts ++ more)

/-- Connects descriptors; a failure is a message. -/
def connectAll (n : Nat) (s : State) (rs : List Redirect) : State × Option String :=
  match n with
  | 0 => (s, none)
  | n + 1 =>
    match rs with
    | [] => (s, none)
    | .mk d kind target :: rs =>
      let (s, items) := expandParts n s target
      match s.redirect d kind (Item.text items) with
      | .ok s => connectAll n s rs
      | .error message => (s, some message)

def assignAll (n : Nat) (s : State) (as : List (String × Word)) : State :=
  match n with
  | 0 => s
  | n + 1 =>
    match as with
    | [] => s
    | (name, w) :: as =>
      let (s, items) := expandParts n s w
      assignAll n (s.assign name (Item.text items)) as

def runList (n : Nat) (s : State) (tested : Bool) (cs : List Command) : State × Flow :=
  match n with
  | 0 => (s, .exit 2)
  | n + 1 =>
    match cs with
    | [] => (s, .go)
    | [c] => run n s tested c
    | c :: cs => andThen (run n s tested c) fun s => runList n s tested cs

/-- Runs the stages of a pipeline, each with the output of the one before it. -/
def runStages (n : Nat) (s : State) (cs : List Command) : State × Flow :=
  match n with
  | 0 => (s, .exit 2)
  | n + 1 =>
    match cs with
    | [] => (s, .go)
    | [c] => runSubshell n s [c]
    | c :: cs =>
      let (inner, i) := s.opened (.buffer "")
      match runSubshell n (inner.connect 1 i) [c] with
      | (after, .killed k) => (after, .killed k)
      | (after, _) =>
        let text := after.written i
        let (next, j) := (s.afterSubshell after).opened (.source text)
        let (after, flow) := runStages n (next.connect 0 j) cs
        ({ s.afterSubshell after with taken := after.taken }, flow)

/-- Runs commands whose changes other than to files are lost. -/
def runSubshell (n : Nat) (s : State) (cs : List Command) : State × Flow :=
  match n with
  | 0 => (s, .exit 2)
  | n + 1 =>
    match runList n s false cs with
    | (inner, .killed k) => (s.afterSubshell inner, .killed k)
    | (inner, .exit k) => (s.afterSubshell { inner with status := k }, .go)
    | (inner, .return_ k) => (s.afterSubshell { inner with status := k }, .go)
    | (inner, _) => (s.afterSubshell inner, .go)

def runLoop (n : Nat) (s : State) (tested whileTrue : Bool) (condition body : List Command)
    (status : Nat) : State × Flow :=
  match n with
  | 0 => (s, .exit 2)
  | n + 1 =>
    match runList n s true condition with
    | (s, .go) =>
      if (s.status == 0) != whileTrue then ({ s with status := status }, .go)
      else
        let (s, flow) := runList n s tested body
        match afterBody flow with
        | none => runLoop n s tested whileTrue condition body s.status
        | some f => (s, f)
    | (s, flow) =>
      match afterBody flow with
      | none => runLoop n s tested whileTrue condition body status
      | some f => (s, f)

def runEach (n : Nat) (s : State) (tested : Bool) (name : String) (texts : List String)
    (body : List Command) : State × Flow :=
  match n with
  | 0 => (s, .exit 2)
  | n + 1 =>
    match texts with
    | [] => (s, .go)
    | t :: ts =>
      let (s, flow) := runList n (s.assign name t) tested body
      match afterBody flow with
      | none => runEach n s tested name ts body
      | some f => (s, f)

/-- Runs the first arm with a pattern that matches. -/
def runSelect (n : Nat) (s : State) (tested : Bool) (text : List Char)
    (arms : List (List Word × List Command)) : State × Flow :=
  match n with
  | 0 => (s, .exit 2)
  | n + 1 =>
    match arms with
    | [] => ({ s with status := 0 }, .go)
    | ([], _) :: arms => runSelect n s tested text arms
    | (w :: ws, body) :: arms =>
      let (s, items) := expandParts n s w
      if Glob.matches? (Glob.read (Item.marked items)) text then
        runList n { s with status := 0 } tested body
      else runSelect n s tested text ((ws, body) :: arms)

/-- Runs a text as a script in this shell. -/
def runText (n : Nat) (s : State) (cursor : Cursor) : State × Flow :=
  match n with
  | 0 => (s, .exit 2)
  | n + 1 =>
    match (readLine (2 * cursor.rest.length + 100)).run cursor with
    | .error e =>
      ({ s with line := e.line }.complain e.message, .exit 2)
    | .ok (none, _) => (s, .go)
    | .ok (some cs, rest) => andThen (runList n s false cs) fun s => runText n s rest

def run (n : Nat) (s : State) (tested : Bool) (c : Command) : State × Flow :=
  match n with
  | 0 => (s, .exit 2)
  | n + 1 =>
    match c with
    | .simple line as ws rs => runSimple n { s with line := line } tested as ws rs
    | .redirected line body rs =>
      match connectAll n { s with line := line } rs with
      | (s', none) =>
        let (after, flow) := run n s' tested body
        ({ after with descriptors := s.descriptors }, flow)
      | (s', some message) =>
        ({ s'.complain message with descriptors := s.descriptors, status := 2 }, .go)
    | .pipeline cs => andThen (runStages n s cs) (checked tested)
    | .negated body =>
      andThen (run n s true body) fun s =>
        ({ s with status := if s.status = 0 then 1 else 0 }, .go)
    | .both a b =>
      andThen (run n s true a) fun s => if s.status = 0 then run n s tested b else (s, .go)
    | .either a b =>
      andThen (run n s true a) fun s => if s.status = 0 then (s, .go) else run n s tested b
    | .group body => runList n s tested body
    | .subshell body => andThen (runSubshell n s body) (checked tested)
    | .choice condition yes no =>
      andThen (runList n s true condition) fun s =>
        if s.status = 0 then runList n { s with status := 0 } tested yes
        else runList n { s with status := 0 } tested no
    | .loop whileTrue condition body => runLoop n s tested whileTrue condition body 0
    | .each name words body =>
      let (s, texts) := match words with
        | some ws => expandWords n s ws
        | none => (s, s.parameters)
      runEach n { s with status := 0 } tested name texts body
    | .select w arms =>
      let (s, items) := expandParts n s w
      runSelect n s tested (Item.text items).toList arms
    | .define name body =>
      ({ s with
          functions := (name, body) :: s.functions.filter (·.1 ≠ name)
          status := 0 }, .go)

/-- Runs a simple command: its words, then its redirections, then its assignments. -/
def runSimple (n : Nat) (s : State) (tested : Bool) (as : List (String × Word)) (ws : List Word)
    (rs : List Redirect) : State × Flow :=
  match n with
  | 0 => (s, .exit 2)
  | n + 1 =>
    let (s, texts) := expandWords n { s with taken := none } ws
    let (connected, refusal) := connectAll n s rs
    let outer := s.descriptors
    match s.failing, refusal, texts with
    | some k, _, _ => (s, .exit k)
    | none, some message, _ =>
      let after := { connected.complain message with descriptors := outer, status := 2 }
      if texts.head?.any fun t => t ∈ specialCommands then (after, .exit 2)
      else checked tested after
    | none, none, [] =>
      let after := assignAll n connected as
      match after.failing with
      | some k => (after, .exit k)
      | none =>
        checked tested { after with descriptors := outer, status := after.taken.getD 0 }
    | none, none, name :: args =>
      let saved := connected.vars
      let ready := assignAll n connected as
      let (after, flow) := runCommand n ready name args
      let permanent := name = "exec" && args.isEmpty
      let after := { after with
        descriptors := if permanent then after.descriptors else outer
        vars :=
          if as.isEmpty || name ∈ specialCommands then after.vars
          else after.vars.filter (fun v => !(as.any fun a => a.1 = v.1)) ++
            saved.filter fun v => as.any fun a => a.1 = v.1 }
      andThen (after, flow) (checked tested)

/-- Runs a command by its name, with its arguments. -/
def runCommand (n : Nat) (s : State) (name : String) (args : List String) : State × Flow :=
  match n with
  | 0 => (s, .exit 2)
  | n + 1 =>
    let ended (r : State × Nat) : State × Flow := ({ r.1 with status := r.2 }, .go)
    let fatal (r : State × Nat) : State × Flow := ({ r.1 with status := r.2 }, .exit r.2)
    let number (what : String) (standard : Nat) (f : Nat → State × Flow) : State × Flow :=
      match args with
      | [] => f standard
      | a :: _ =>
        if a ≠ "" && a.toList.all Char.isDigit then f (a.toNat?.getD 0)
        else fatal (s.refuse what ("Illegal number: " ++ a))
    match s.functions.lookup name with
    | some body =>
      let (after, flow) := run n { s with parameters := args } false body
      let after := { after with parameters := s.parameters }
      match flow with
      | .return_ k => ({ after with status := k }, .go)
      | flow => (after, flow)
    | none =>
      match name with
      | "exit" => number "exit" s.status fun k => (s, .exit (k % 256))
      | "return" => number "return" s.status fun k => ({ s with status := k }, .return_ k)
      | "break" => number "break" 1 fun k => ({ s with status := 0 }, .leave k)
      | "continue" => number "continue" 1 fun k => ({ s with status := 0 }, .next k)
      | "shift" =>
        number "shift" 1 fun k =>
          if s.parameters.length < k then fatal (s.refuse "shift" "can't shift that many")
          else ({ s with parameters := s.parameters.drop k, status := 0 }, .go)
      | "set" =>
        let options := args.takeWhile fun a => isOptions a && a ≠ "--"
        let rest := args.drop options.length
        let s := options.foldl (fun s o =>
          { s with
            stopAtErrors := s.stopAtErrors || 'e' ∈ o.toList
            stopAtUnset := s.stopAtUnset || 'u' ∈ o.toList }) { s with status := 0 }
        match rest with
        | [] => (s, .go)
        | "--" :: ps => ({ s with parameters := ps }, .go)
        | ps => ({ s with parameters := ps }, .go)
      | "unset" =>
        let names := (splitOptions args).2
        ({ s with
            vars := s.vars.filter fun v => v.1 ∉ names
            functions := s.functions.filter fun f => f.1 ∉ names
            status := 0 }, .go)
      | "eval" => runText n { s with status := 0 } ⟨(" ".intercalate args).toList, s.line, 0⟩
      | "." =>
        match s.tree.read s.cwd (State.path (args.headD "")) with
        | .ok bytes =>
          let (after, flow) := runText n { s with status := 0 } ⟨(ofBytes bytes).toList, 1, 0⟩
          match flow with
          | .return_ k => ({ after with status := k, line := s.line }, .go)
          | flow => ({ after with line := s.line }, flow)
        | .error e =>
          fatal (s.refuse "." ("cannot open " ++ args.headD "" ++ ": " ++ State.openReason e))
      | "exec" =>
        match args with
        | [] => ({ s with status := 0 }, .go)
        | a :: more =>
          match runCommand n s a more with
          | (s, .go) => (s, .exit s.status)
          | r => r
      | "command" =>
        match args with
        | "-v" :: a :: _ =>
          if (utility? a).isSome || (builtin? a).isSome || a ∈ specialCommands then
            ({ s.out (a ++ "\n") with status := 0 }, .go)
          else ({ s with status := 127 }, .go)
        | a :: more => runCommand n { s with functions := [] } a more
        | [] => ({ s with status := 0 }, .go)
      | "kill" =>
        match signalSent args with
        | some 0 => ({ s with status := 0 }, .go)
        | some k => (s, .killed k)
        | none => ended (s.refuse "kill" "No such process")
      | "sh" => runProgram n s args
      | _ =>
        if name ∈ ["export", "readonly", "local"] then
          (args.foldl (fun s a =>
            match a.splitOn "=" with
            | v :: (x :: xs) => if isName v then s.assign v ("=".intercalate (x :: xs)) else s
            | _ => s) { s with status := 0 }, .go)
        else match builtin? name, utility? name with
          | some f, _ => ended (f s args)
          | none, some f => ended (f s args)
          | none, none =>
            ({ s.complain (name ++ ": not found") with status := 127 }, .go)

/-- Runs the shell as a program, for a script or a text. -/
def runProgram (n : Nat) (s : State) (args : List String) : State × Flow :=
  match n with
  | 0 => (s, .exit 2)
  | n + 1 =>
    let fresh : State :=
      { s with
        vars := s.vars, functions := [], line := 0, name := "sh", parameters := []
        stopAtErrors := false, stopAtUnset := false }
    let finish (r : State × Flow) : State × Flow :=
      match r with
      | (inner, .killed k) => ({ s.afterSubshell inner with status := 128 + k }, .killed k)
      | (inner, .exit k) => ({ s.afterSubshell inner with status := k }, .go)
      | (inner, .return_ k) => ({ s.afterSubshell inner with status := k }, .go)
      | (inner, _) => (s.afterSubshell inner, .go)
    let (options, rest) := splitOptions args
    let fresh := { fresh with stopAtErrors := 'e' ∈ options, stopAtUnset := 'u' ∈ options }
    match options.find? fun o => o ∉ ['c', 'e', 'u', 's', 'f'] with
    | some o => finish (fresh.complain ("Illegal option -" ++ String.ofList [o]), .exit 2)
    | none =>
      if 'c' ∈ options then
        match rest with
        | [] => finish (fresh.complain "-c requires an argument", .exit 2)
        | text :: more =>
          let fresh := { fresh with
            name := more.headD "sh", parameters := more.drop 1, status := 0 }
          finish (runText n fresh ⟨text.toList, 1, 0⟩)
      else match rest with
        | [] =>
          let (fresh, text) := fresh.readAll
          finish (runText n { fresh with status := 0 } ⟨text.toList, 1, 0⟩)
        | file :: more =>
          match s.tree.read s.cwd (State.path file) with
          | .ok bytes =>
            let fresh := { fresh with name := file, parameters := more, status := 0 }
            finish (runText n fresh ⟨(ofBytes bytes).toList, 1, 0⟩)
          | .error .isDirectory => finish ({ fresh with status := 0 }, .go)
          | .error e =>
            finish (fresh.complain ("cannot open " ++ file ++ ": " ++ State.openReason e), .exit 2)

end

end OnDemand.Rehearsal.Shell
