import OnDemand.FileTree
import OnDemand.Rehearsal.Shell.Pattern
import OnDemand.Rehearsal.Shell.Script

/-!
# The state of a shell

The files, the open streams with the descriptors connected to them, the variables, and the status
of the last command. Text is bytes, each kept as the character with its number.
-/

namespace OnDemand.Rehearsal.Shell

/-! ## Bytes and text -/

def ofBytes (b : ByteArray) : String :=
  String.ofList (b.toList.map fun x => Char.ofNat x.toNat)

def toBytes (s : String) : ByteArray :=
  ⟨(s.toList.map fun c => UInt8.ofNat c.toNat).toArray⟩

def ofText (s : String) : String :=
  ofBytes s.toUTF8

/-- The text that bytes are the encoding of; others stand for themselves. -/
def toText (s : String) : String :=
  (String.fromUTF8? (toBytes s)).getD s

/-! ## State -/

/-- What a descriptor reads from or writes to. -/
inductive Stream where
  /-- Text to read. -/
  | source (rest : String)
  /-- Text written so far. -/
  | buffer (text : String)
  /-- Writes go to the end of a file. -/
  | file (at_ : Location)
  | sink

instance : Inhabited Stream := ⟨.sink⟩

/-- A shell between two commands. -/
structure State where
  tree : FileTree
  streams : Array Stream := #[]
  /-- The stream that each descriptor is connected with. -/
  descriptors : List (Nat × Nat) := []
  cwd : Location := []
  vars : List (String × String) := []
  functions : List (String × Command) := []
  /-- The name of the script. -/
  name : String := "sh"
  parameters : List String := []
  status : Nat := 0
  /-- The line of the command that runs. -/
  line : Nat := 0
  /-- The status of the last command whose output was taken, while an assignment is made. -/
  taken : Option Nat := none
  /-- The status to end with, after an expansion that failed. -/
  failing : Option Nat := none
  stopAtErrors : Bool := false
  stopAtUnset : Bool := false
  /-- How many nanoseconds have been waited. -/
  waited : Nat := 0
  /-- The files during each wait, with the moment of its end, the last wait first. -/
  trail : List (Nat × FileTree) := []

/-- How a command ends. -/
inductive Flow where
  | go
  | exit (status : Nat)
  | leave (loops : Nat)
  | next (loops : Nat)
  | return_ (status : Nat)
  | killed (signal : Nat)
deriving DecidableEq

namespace State

/-! ## Streams -/

def opened (s : State) (st : Stream) : State × Nat :=
  ({ s with streams := s.streams.push st }, s.streams.size)

def connect (s : State) (descriptor stream : Nat) : State :=
  { s with descriptors := (descriptor, stream) :: s.descriptors.filter (·.1 ≠ descriptor) }

def disconnect (s : State) (descriptor : Nat) : State :=
  { s with descriptors := s.descriptors.filter (·.1 ≠ descriptor) }

/-- Writes text to a descriptor. -/
def emit (s : State) (descriptor : Nat) (text : String) : State :=
  match s.descriptors.lookup descriptor with
  | none => s
  | some i =>
    match s.streams[i]? with
    | some (.buffer old) => { s with streams := s.streams.set! i (.buffer (old ++ text)) }
    | some (.file l) =>
      match s.tree.entry? l with
      | some (.file old) => { s with tree := s.tree.set l (.file (old ++ toBytes text)) }
      | _ => s
    | _ => s

def out (s : State) (text : String) : State := s.emit 1 text

def err (s : State) (text : String) : State := s.emit 2 text

/-- Takes all text that is left to read. -/
def readAll (s : State) : State × String :=
  match s.descriptors.lookup 0 with
  | none => (s, "")
  | some i =>
    match s.streams[i]? with
    | some (.source rest) => ({ s with streams := s.streams.set! i (.source "") }, rest)
    | _ => (s, "")

/-- Takes a line, and tells whether it ended with a newline. -/
def readLine (s : State) : State × String × Bool :=
  match s.descriptors.lookup 0 with
  | none => (s, "", false)
  | some i =>
    match s.streams[i]? with
    | some (.source rest) =>
      let cs := rest.toList
      let line := cs.takeWhile (· ≠ '\n')
      let after := cs.drop (line.length + 1)
      ({ s with streams := s.streams.set! i (.source (String.ofList after)) },
        String.ofList line, line.length < cs.length)
    | _ => (s, "", false)

/-- What was written to a stream. -/
def written (s : State) (stream : Nat) : String :=
  match s.streams[stream]? with
  | some (.buffer text) => text
  | _ => ""

/-! ## Variables and messages -/

def binding? (s : State) (name : String) : Option String :=
  s.vars.lookup name

def assign (s : State) (name value : String) : State :=
  { s with vars := (name, value) :: s.vars.filter (·.1 ≠ name) }

/-- A message of the shell itself. -/
def complain (s : State) (message : String) : State :=
  s.err (s.name ++ ": " ++ toString s.line ++ ": " ++ message ++ "\n")

/-- A message of a command that is part of the shell, which ends with status two. -/
def refuse (s : State) (command message : String) : State × Nat :=
  (s.complain (command ++ ": " ++ message), 2)

/-- The path that an argument means. -/
def path (arg : String) : Path :=
  ⟨toText arg⟩

/-- The text of the working directory. -/
def cwdText (s : State) : String :=
  ofText ("/" ++ "/".intercalate s.cwd)

/-! ## Redirections -/

/-- The cause why a file could not be opened, and why it could not be made. -/
def openReason : FileError → String
  | .notFound => "No such file"
  | .notDirectory => "No such file"
  | e => e.reason

def createReason : FileError → String
  | .notFound => "Directory nonexistent"
  | .notDirectory => "Directory nonexistent"
  | e => e.reason

/-- Opens a file for reading. -/
def openSource (s : State) (descriptor : Nat) (target : String) : Except String State :=
  let give (text : String) : State :=
    let (s, i) := s.opened (.source text)
    s.connect descriptor i
  if target = "/dev/null" then .ok (give "")
  else match s.tree.read s.cwd (path target) with
    | .ok bytes => .ok (give (ofBytes bytes))
    | .error .isDirectory => .ok (give "")
    | .error e => .error ("cannot open " ++ target ++ ": " ++ openReason e)

/-- Opens a file for writing at its end, emptied before or not. -/
def openFile (s : State) (descriptor : Nat) (target : String) (keep : Bool) :
    Except String State :=
  let copy (from_ : Nat) : Except String State :=
    match s.descriptors.lookup from_ with
    | some i => .ok (s.connect descriptor i)
    | none => .ok (s.disconnect descriptor)
  if target = "/dev/null" then
    let (s, i) := s.opened .sink
    .ok (s.connect descriptor i)
  else if target = "/dev/stdout" then copy 1
  else if target = "/dev/stderr" then copy 2
  else
    let p := path target
    let old := if keep then (s.tree.read s.cwd p).toOption.getD .empty else .empty
    match s.tree.write s.cwd p old, s.tree.locate s.cwd p with
    | .ok t, .ok l =>
      let (s, i) := ({ s with tree := t } : State).opened (.file l)
      .ok (s.connect descriptor i)
    | .error e, _ => .error ("cannot create " ++ target ++ ": " ++ createReason e)
    | _, .error e => .error ("cannot create " ++ target ++ ": " ++ createReason e)

/-- Connects a descriptor as a redirection says. -/
def redirect (s : State) (descriptor : Nat) (kind : RedirectKind) (target : String) :
    Except String State :=
  match kind with
  | .input => s.openSource descriptor target
  | .output => s.openFile descriptor target false
  | .append => s.openFile descriptor target true
  | .text =>
    let (s, i) := s.opened (.source target)
    .ok (s.connect descriptor i)
  | .duplicate =>
    if target = "-" then .ok (s.disconnect descriptor)
    else match target.toNat?.bind fun n => s.descriptors.lookup n with
      | some i => .ok (s.connect descriptor i)
      | none => .error (target ++ ": Bad file descriptor")

end State

end OnDemand.Rehearsal.Shell
