import OnDemand.ArtifactDirectory
import OnDemand.Config.Writer
import OnDemand.Error

/-!
# Errors of the program

Why a task was not done, and how that is told: what failed, and below it the causes from the
nearest to the farthest.
-/

namespace OnDemand.Cli

/-- Why a task was not done. -/
inductive TaskError where
  | name (raw : String) (e : NameError)
  | config (e : ConfigError)
  | noCompiler
  /-- The kept artifacts cannot be loaded. -/
  | loading (root : Path) (e : DirectoryError)
  /-- The kept artifacts contradict each other. -/
  | kept (e : CallError)
  /-- The artifacts cannot be kept. -/
  | keeping (root : Path) (e : DirectoryError)
  | reading (file : Path) (e : FileError)
  | notBelow (file root : Path)
  | nameless (file : Path)
  | writing (file : Path) (e : FileError)
  /-- The artifacts cannot be written where they were asked for. -/
  | publishing (dir : Path) (e : DirectoryError)
  | unavailable (name : Name)
  | resolving (name : Name) (e : CallError)
  | compiling (e : CallError)
  | rendering (e : Config.TooLarge)
  | overflow (o : Overflow)
  | extension (e : BadExtension)
deriving DecidableEq

namespace TaskError

/-- An error of a directory and what caused it. -/
def directoryChain : DirectoryError → List String
  | .file action path e => [DirectoryError.message (.file action path e), e.message]
  | .walk root path e => [DirectoryError.message (.walk root path e)]
  | .name path e => [DirectoryError.message (.name path e), e.message]
  | .extension e => [e.message]

/-- What failed, and its causes. -/
def chain : TaskError → List String
  | .name raw e => ["invalid name '" ++ raw ++ "'", e.message]
  | .config (.unreadable file e) => [ConfigError.message (.unreadable file e), e.message]
  | .config e => [e.message]
  | .noCompiler =>
    ["no backend configured: set [backend].program in summon.toml or SUMMON_BACKEND"]
  | .loading root e => ("failed to load artifacts from " ++ root.text) :: directoryChain e
  | .kept e => [e.message]
  | .keeping root e => ("failed to persist artifacts to " ++ root.text) :: directoryChain e
  | .reading file e => ["failed to read " ++ file.text, e.message]
  | .notBelow file root => [file.text ++ " is not under " ++ root.text, "prefix not found"]
  | .nameless file => [file.text ++ " cannot be mapped to a unit name"]
  | .writing file e => ["failed to write " ++ file.text, e.message]
  | .publishing dir e => ("failed to write artifacts to " ++ dir.text) :: directoryChain e
  | .unavailable n => [n.text ++ " is not compiled and could not be fetched"]
  | .resolving n e => ["failed to resolve " ++ n.text, e.message]
  | .compiling e => [e.message]
  | .rendering e => ["failed to render configuration", e.message]
  | .overflow o => [o.message]
  | .extension e => [e.message]

/-- Whether the program itself breaks off. -/
def isCrash : TaskError → Bool
  | .overflow _ => true
  | .extension _ => true
  | .loading _ (.extension _) => true
  | .keeping _ (.extension _) => true
  | .publishing _ (.extension _) => true
  | _ => false

/-- Lines with a text before the first and another before the others. -/
def indented (first others text : String) : String :=
  first ++ ("\n" ++ others).intercalate (piecesOf (· == '\n') text)

/-- Causes, each on lines of its own. They are numbered where there are several. -/
def causes : List String → String
  | [] => ""
  | [cause] => "\nCaused by:\n" ++ indented "    " "    " cause ++ "\n"
  | several =>
    let number (n : Nat) : String :=
      let digits := toString n
      String.ofList (List.replicate (5 - digits.length) ' ') ++ digits ++ ": "
    "\nCaused by:\n" ++ String.join (several.mapIdx fun n cause =>
      indented (number n) "       " cause ++ "\n")

/-- What is written about an error. -/
def report (e : TaskError) : String :=
  match e.chain with
  | [] => ""
  | outer :: inner => "Error: " ++ outer ++ "\n" ++ causes inner

end TaskError

end OnDemand.Cli
