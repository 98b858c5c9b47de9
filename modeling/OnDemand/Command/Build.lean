import OnDemand.ArtifactDirectory
import OnDemand.Command
import OnDemand.Environment
import OnDemand.Error
import OnDemand.Processors
import OnDemand.Program
import OnDemand.Text.Lossy

/-!
# Compiling with a command

Every run of a compiler has a directory of its own, which is gone after it. Below it are a file for
each unit, the stored artifacts where the compiler takes any, and a directory for what the compiler
makes: of that each file with the extension of artifacts is one.
-/

namespace OnDemand

/-- The directory of one compiler run. -/
structure Staging where
  root : Path
deriving DecidableEq

namespace Staging

def sources (s : Staging) : Path := s.root.join ⟨"src"⟩

def library (s : Staging) : Path := s.root.join ⟨"lib"⟩

def output (s : Staging) : Path := s.root.join ⟨"out"⟩

end Staging

/-- How a compiler run ends. -/
inductive BuildEnd where
  | output (o : BuildOutput)
  | failed (f : BuildFailure)
  | crashed (e : BadExtension)
deriving DecidableEq

namespace BuildEnd

/-- A run that ended before the compiler could make anything. -/
def early (message : String) : BuildEnd :=
  failed ⟨message, [], []⟩

def ofDirectoryError : DirectoryError → BuildEnd
  | .extension e => crashed e
  | e => early e.message

end BuildEnd

/-- What a compiler run leaves behind. -/
structure BuildRun where
  tree : FileTree
  ending : BuildEnd
  /-- How many nanoseconds the compiler took. -/
  elapsed : Nat
  /-- The files some nanoseconds after the start of a run whose end nobody waits for, so that its
  directory stays. -/
  abandoned : Nat → FileTree

namespace CommandForm

/-- The path of a name's source, below the directory of sources. -/
def sourcePath (f : CommandForm) (n : Name) : Except BadExtension Path :=
  (Path.joinAll ⟨""⟩ n.segments).setExtension f.sourceExtension

/-- A directory of artifacts, for a compiler to read or write. -/
def directory (f : CommandForm) (root : Path) (known : List Name) : ArtifactDirectory :=
  ⟨root, f.artifactExtension, f.separator, known⟩

/-! ## Sources -/

/-- Writes the sources of units below a directory and tells their paths. -/
def stageSources (f : CommandForm) (cwd : Location) (dir : Path) :
    FileTree → List SourceUnit → FileTree × Except DirectoryError (List Path)
  | t, [] => (t, .ok [])
  | t, u :: us =>
    match f.sourcePath u.name with
    | .error e => (t, .error (.extension e))
    | .ok relative =>
      let p := dir.join relative
      match t.writeThrough cwd "create dir" p u.text.toUTF8 with
      | (t, .error e) => (t, .error e)
      | (t, .ok ()) =>
        match stageSources f cwd dir t us with
        | (t, .error e) => (t, .error e)
        | (t, .ok ps) => (t, .ok (p :: ps))

/-- Writes the stored artifacts for a compiler that takes any. -/
def stageLibrary (f : CommandForm) (cwd : Location) (dir : Path) (t : FileTree)
    (stored : List Artifact) : FileTree × Except DirectoryError Unit :=
  if f.linkFlag.isSome then (f.directory dir []).save t cwd stored else (t, .ok ())

/-! ## The run -/

/-- The arguments of a run. -/
def allArguments (f : CommandForm) (s : Staging) (processors : ProcessorSet)
    (sources : List Path) : List String :=
  let offered := match Processors.optionValue processors with
    | some value => [f.processorFlag, value]
    | none => []
  let linked := match f.linkFlag with
    | some flag => [flag, s.library.text]
    | none => []
  f.arguments ++ offered ++ linked ++ [f.outputFlag, s.output.text] ++ sources.map Path.text

/-- What a compiler says: the lines of its error stream that are not blank. -/
def diagnosticsOf (errors : ByteArray) : List String :=
  (linesOf (Text.lossy errors)).filter (!isBlankText ·)

/-- The artifacts that a compiler made. Those of the units have exactly their names. -/
def collect (f : CommandForm) (t : FileTree) (cwd : Location) (s : Staging)
    (units : List SourceUnit) (deny : Denials) : Except DirectoryError (List Artifact) :=
  (f.directory s.output (units.map (·.name))).load t cwd deny

end CommandForm

namespace Command

/-- What a run of the compiler comes to. -/
def conclude (c : Command) (cwd : Location) (s : Staging) (units : List SourceUnit)
    (r : ProgramRun) : BuildEnd :=
  let diagnostics := CommandForm.diagnosticsOf r.errors
  let made := c.collect r.tree cwd s units r.denied
  if r.status = .code 0 then
    match made with
    | .ok artifacts => .output ⟨artifacts, diagnostics⟩
    | .error e => .early ("unusable backend output: " ++ e.message)
  else
    .failed ⟨c.program ++ " exited with " ++ r.status.text, diagnostics,
      made.toOption.getD []⟩

/-- Runs the compiler in a directory that is there. -/
def buildIn (c : Command) (programs : Programs) (cwd : Location) (s : Staging) (t : FileTree)
    (units : List SourceUnit) (processors : ProcessorSet) (stored : List Artifact) : BuildRun :=
  match t.makeDirs cwd s.output with
  | (t, .error e) =>
    ⟨t, .early ("failed to create output dir " ++ s.output.text ++ ": " ++ e.message), 0, fun _ => t⟩
  | (t, .ok ()) =>
    match c.stageSources cwd s.sources t units with
    | (t, .error e) => ⟨t, .ofDirectoryError e, 0, fun _ => t⟩
    | (t, .ok sources) =>
      match c.stageLibrary cwd s.library t stored with
      | (t, .error e) => ⟨t, .ofDirectoryError e, 0, fun _ => t⟩
      | (t, .ok ()) =>
        match programs c.program (c.allArguments s processors sources) cwd t with
        | .error e => ⟨t, .early ("failed to run " ++ c.program ++ ": " ++ e.message), 0, fun _ => t⟩
        | .ok r => ⟨r.tree, c.conclude cwd s units r, r.elapsed, r.treeAt⟩

/-! ## The directory of a run -/

/-- The name of the directory of a run, from a number. -/
def stagingName (n : Nat) : String :=
  let digits := toString n
  ".tmp" ++ String.ofList (List.replicate (6 - digits.length) '0') ++ digits

/-- A path for the directory of a run where nothing is yet. -/
def freshStaging (t : FileTree) (cwd : Location) (temporary : Path) : Staging :=
  let path (n : Nat) : Path := temporary.join ⟨stagingName n⟩
  let free := (List.range (t.entries.length + 1)).find? fun n => !t.pathExists cwd (path n)
  ⟨path (free.getD 0)⟩

/-- Compiles units in a new directory below one for temporary files. -/
def build (c : Command) (programs : Programs) (temporary : Path) (cwd : Location) (t : FileTree)
    (units : List SourceUnit) (processors : ProcessorSet) (stored : List Artifact) : BuildRun :=
  let s := freshStaging t cwd (cwd.resolve temporary)
  match t.makeDir cwd s.root, t.locate cwd s.root with
  | .ok t, .ok place =>
    let run := c.buildIn programs cwd s t units processors stored
    { run with tree := run.tree.remove place }
  | .error e, _ | _, .error e =>
    ⟨t, .early ("failed to create staging dir: " ++ e.message ++ " at path " ++
      Text.quotePath s.root.text), 0, fun _ => t⟩

end Command

end OnDemand
