import OnDemand.Cli
import OnDemand.Rehearsal.Shell.Programs

/-!
# The program as a command

Reads the files below the working directory and the user's configuration, runs the program on them,
and writes back what it changed. Compilers are run by the shell of this library.
-/

namespace OnDemand.Outer

/-- The variables that the program looks at. -/
def environmentNames : List String :=
  ["HOME", "XDG_CONFIG_HOME", "TMPDIR", "SUMMON_BACKEND", "SUMMON_REMOTE_PREFIXES",
    "SUMMON_SOURCE_ROOT", "SUMMON_STORE_DIR", "SUMMON_FETCH_TIMEOUT_MS",
    "SUMMON_COMPILE_TIMEOUT_MS", "SUMMON_FAILURE_TTL_SECS"]

def readEnvironment : IO Environment := do
  let values ← environmentNames.mapM fun name => do
    return (← IO.getEnv name).map fun value => (name, value)
  return values.filterMap id

/-- The location of an absolute path. -/
def locationOf (text : String) : Location :=
  (piecesOf Path.isSlash text).filter (· ≠ "")

/-- Reads all files below a directory into a tree. -/
partial def readBelow (t : FileTree) (l : Location) : IO FileTree := do
  let dir ← IO.FS.realPath l.text
  let mut t := t.place l .dir
  for e in ← dir.readDir do
    let below := l ++ [e.fileName]
    if ← e.path.isDir then t ← readBelow t below
    else t := t.place below (.file (← IO.FS.readBinFile e.path))
  return t

/-- Reads a file into a tree, if it is there. -/
def readFile (t : FileTree) (l : Location) : IO FileTree :=
  try
    return t.place l (.file (← IO.FS.readBinFile l.text))
  catch _ => return t

/-- Writes the entries of a tree that another does not have. -/
def writeChanges (before after : FileTree) : IO Unit :=
  for (l, e) in after.entries.reverse do
    if before.entry? l ≠ some e then
      match e with
      | .dir => IO.FS.createDirAll l.text
      | .file bytes => IO.FS.writeBinFile l.text bytes

/-- Removes the files of a tree that another has no longer. -/
def removeMissing (before after : FileTree) : IO Unit :=
  for (l, e) in before.entries do
    if e ≠ .dir && (after.entry? l).isNone then IO.FS.removeFile l.text

end OnDemand.Outer

open OnDemand OnDemand.Outer in
def main (args : List String) : IO UInt32 := do
  let env ← readEnvironment
  let cwd := locationOf (← IO.currentDir).toString
  let t ← readBelow .empty cwd
  let t := t.place (locationOf (cwd.resolve env.temporaryRoot).text) .dir
  let t ← match Config.userFile env with
    | some file => readFile t (locationOf file.text)
    | none => pure t
  let there : Cli.Place :=
    { environment := env, cwd := cwd, programs := Rehearsal.Shell.programs env, now := ← IO.monoNanosNow }
  let outcome := Cli.run there t args
  writeChanges t outcome.console.tree
  removeMissing t outcome.console.tree
  IO.print outcome.console.out
  IO.eprint outcome.console.err
  return outcome.code.toUInt32
