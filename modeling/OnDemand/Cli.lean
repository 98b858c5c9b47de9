import OnDemand.Cli.Arguments
import OnDemand.Cli.Session

/-!
# The program

Looks names up, compiles files, tells whether a name is compiled, and shows the configuration. What
it does is a function of its arguments and of the place where it runs, with the files there.
-/

namespace OnDemand.Cli

/-- The files, and what has been written to the two output streams. -/
structure Console where
  tree : FileTree
  out : String
  err : String
deriving DecidableEq

/-- Something the program does. What was done before an error stays. -/
abbrev Act := ExceptT TaskError (StateM Console)

namespace Act

def print (text : String) : Act Unit :=
  modify fun c => { c with out := c.out ++ text }

def printLine (line : String) : Act Unit :=
  print (line ++ "\n")

def complain (line : String) : Act Unit :=
  modify fun c => { c with err := c.err ++ line ++ "\n" }

def tree : Act FileTree :=
  return (← get).tree

def setTree (t : FileTree) : Act Unit :=
  modify fun c => { c with tree := t }

end Act

open Act

/-! ## Parts of tasks -/

def warningJson (w : Config.Warning) : Json :=
  .object [("event", .string "config_warning"), ("file", .string w.file.text),
    ("key", .string w.key),
    ("line", match w.line with
      | some n => .number n
      | none => .null),
    ("suggestion", .optional w.suggestion)]

/-- Tells the warnings about the configuration. -/
def warn (json : Bool) (ws : List Config.Warning) : Act Unit :=
  ws.forM fun w => complain (if json then (warningJson w).text else "warning: " ++ w.text)

/-- Reads the configuration and tells the warnings about it. -/
def readConfig (p : Place) (i : Invocation) : Act Loaded := do
  let l ← ofExcept (Loaded.read p (← tree) i.config)
  warn i.json l.warnings
  return l

/-- Opens a session for a task. -/
def startSession (p : Place) (i : Invocation) (l : Loaded) : Act Session := do
  ofExcept (Session.start p l (if i.json then .all else .none) (← tree))

/-- Takes over the files of a session after a call and keeps the artifacts that are new, whatever
came of the call. -/
def keep (p : Place) (s : Session) : Act Nat := do
  let (t, kept) := s.keep p
  setTree t
  ofExcept kept

/-! ## Tasks -/

def foundJson (a : Artifact) (kept : Nat) : Json :=
  .object [("event", .string "resolved"), ("name", .string a.name.text),
    ("digest", .string a.digest.text), ("bytes", .number a.payload.size),
    ("processor", .bool a.isProcessor), ("persisted", .number kept)]

/-- Tells of an artifact that was found, and writes it to a file that was asked for. -/
def showFound (p : Place) (json : Bool) (output : Option Path) (kept : Nat) (a : Artifact) :
    Act Unit := do
  if let some file := output then
    match (← tree).write p.cwd file a.payload with
    | .ok t => setTree t
    | .error e => throw (.writing file e)
  if json then printLine (foundJson a kept).text
  else
    printLine ("✓ " ++ a.name.text ++ " (" ++ toString a.payload.size ++ " bytes, " ++
      a.digest.short ++ ")")
    if let some file := output then printLine ("  written to " ++ file.text)

/-- Looks a name up, fetching and compiling it where it is not stored. -/
def resolve (p : Place) (i : Invocation) (raw : String) (output : Option Path) : Act Unit := do
  let name ← ofExcept (readName raw)
  let s ← startSession p i (← readConfig p i)
  let (s, outcome) := s.resolve p name
  s.told.forM complain
  let r ← ofExcept outcome
  let kept ← keep p s
  match r with
  | .found a => showFound p i.json output kept a
  | .absent =>
    if i.json then
      printLine (Json.object [("event", .string "absent"), ("name", .string name.text)]).text
    throw (.unavailable name)
  | .failed e => throw (.resolving name e)

/-- The units in some files. -/
def readUnits (p : Place) (root : Path) (separator : Char) (t : FileTree) :
    List Path → Except TaskError (List SourceUnit)
  | [] => .ok []
  | file :: files =>
    match unitName file root separator with
    | .error e => .error e
    | .ok name =>
      match t.readText p.cwd file with
      | .error e => .error (.reading file e)
      | .ok text => (readUnits p root separator t files).map (⟨name, text, .localFile⟩ :: ·)

def reportJson (r : Report) (kept : Nat) : Json :=
  .object [("event", .string "compiled"), ("requested", .number r.requested.length),
    ("skipped", .strings (r.skipped.map Name.text)),
    ("joined", .strings (r.joined.map Name.text)),
    ("submitted", .strings (r.submitted.map Name.text)),
    ("produced", .strings (r.produced.map Name.text)), ("persisted", .number kept)]

/-- What is told about a batch, line by line. -/
def reportLines (r : Report) : List String :=
  if r.submitted.isEmpty && r.joined.isEmpty then
    ["✓ Nothing to compile (" ++ toString r.skipped.length ++ " already compiled)"]
  else
    ["✓ Compiled " ++ toString r.submitted.length ++ " unit(s), " ++
      toString r.produced.length ++ " artifact(s) stored"] ++
    (if r.skipped.isEmpty then []
      else ["  skipped (already compiled): " ++ toString r.skipped.length]) ++
    r.produced.map fun n => "    - " ++ n.text

/-- Writes the artifacts that a batch produced where they were asked for. -/
def publish (p : Place) (s : Session) (r : Report) (dir : Path) : Act Unit := do
  let produced := r.produced.filterMap s.world.state.store.get?
  let d : ArtifactDirectory := { s.loaded.artifacts with root := dir }
  let (t, saved) := d.save (← tree) p.cwd produced
  setTree t
  match saved with
  | .ok () => return
  | .error e => throw (.publishing dir e)

/-- Compiles files as one batch. -/
def compile (p : Place) (i : Invocation) (files : List Path) (root : Path)
    (outDir : Option Path) : Act Unit := do
  let l ← readConfig p i
  let units ← ofExcept (readUnits p root l.config.form.separator (← tree) files)
  let s ← startSession p i l
  let (s, outcome) := s.compile p units
  s.told.forM complain
  let result ← ofExcept outcome
  let kept ← keep p s
  match result with
  | .error e => throw (.compiling e)
  | .ok r =>
    outDir.forM (publish p s r)
    if i.json then printLine (reportJson r kept).text
    else (reportLines r).forM printLine

/-- Tells whether a name is compiled. The answer is the status. -/
def tellExists (p : Place) (i : Invocation) (raw : String) : Act Bool := do
  let name ← ofExcept (readName raw)
  let l ← readConfig p i
  ofExcept l.validate
  let (store, _) ← ofExcept (l.openStore p (← tree))
  let found := store.contains name
  if i.json then
    printLine (Json.object [("event", .string "exists"), ("name", .string name.text),
      ("exists", .bool found)]).text
  else printLine (name.text ++ (if found then ": compiled" else ": not compiled"))
  return found

/-- Shows the configuration in effect. -/
def checkConfig (p : Place) (i : Invocation) : Act Unit := do
  let l ← readConfig p i
  ofExcept l.validate
  let source := (l.file.map Path.text).getD "built-in defaults"
  if i.json then
    printLine (Json.object [("event", .string "config"), ("source", .string source),
      ("warnings", .number l.warnings.length), ("config", l.config.toJson)]).text
  else
    printLine ("# effective configuration from " ++ source)
    if l.config.program.isNone then
      printLine "# note: no [backend].program set; resolve and compile will fail"
    match l.config.toToml with
    | .ok text => print text
    | .error e => throw (.rendering e)

/-- Does a task and tells whether it has a good end. -/
def perform (p : Place) (i : Invocation) : Act Bool :=
  match i.task with
  | .resolve name output => do resolve p i name output; return true
  | .compile files root outDir => do compile p i files root outDir; return true
  | .tellExists name => tellExists p i name
  | .checkConfig => do checkConfig p i; return true

/-! ## Runs -/

/-- What a run of the program leaves behind. -/
structure Outcome where
  code : Nat
  console : Console
deriving DecidableEq

/-- What the program is called, and its version. -/
def title : String := "summon 0.4.1"

/-- What is told about how the program is used. -/
def usage : String :=
  String.join (["Usage: summon [OPTIONS] <COMMAND>", "", "Commands:",
    "  resolve       Look up a compiled unit, fetching and compiling it on a miss",
    "  compile       Compile source files as one batch, skipping units already compiled",
    "  exists        Check whether a unit is already compiled (never fetches)",
    "  check-config  Validate the configuration and print the effective settings"].map (· ++ "\n"))

/-- Runs the program with arguments on the files of a place. -/
def run (p : Place) (t : FileTree) (args : List String) : Outcome :=
  match parse args with
  | .error .usage => ⟨2, t, "", usage⟩
  | .error .help => ⟨0, t, usage, ""⟩
  | .error .version => ⟨0, t, title ++ "\n", ""⟩
  | .ok i =>
    match (perform p i).run.run ⟨t, "", ""⟩ with
    | (.ok true, c) => ⟨0, c⟩
    | (.ok false, c) => ⟨1, c⟩
    | (.error e, c) =>
      ⟨if e.isCrash then 101 else 1, { c with err := c.err ++ e.report }⟩

end OnDemand.Cli
