import OnDemand.Cli.UnitName
import OnDemand.Command.Build
import OnDemand.Config.Environment
import OnDemand.Engine.Schedule

/-!
# Sessions

An engine over the artifacts that a project keeps, with the project's sources as its repository and
its command as the compiler. After a call the artifacts that are new in the store are kept as well.
-/

namespace OnDemand.Cli

open Engine

/-- Where the program runs. -/
structure Place where
  environment : Environment
  cwd : Location
  programs : Programs
  now : Moment
  /-- How many nanoseconds the sources take to answer about a name. -/
  delay : Name → Nat := fun _ => 0
  /-- How many nanoseconds after the end of a run its files are looked at. -/
  later : Nat := 0

/-! ## Configuration -/

/-- A configuration and where it came from. -/
structure Loaded where
  config : Config
  /-- The file it was read from, if any. -/
  file : Option Path
  warnings : List Config.Warning
  /-- The directory that its paths are relative to. -/
  base : Path
deriving DecidableEq

namespace Loaded

/-- The configuration in a file, with the overrides of the environment. -/
def ofFile (p : Place) (t : FileTree) (file : Path) : Except TaskError Loaded :=
  match Config.load t p.cwd file with
  | .error e => .error (.config e)
  | .ok (c, warnings) =>
    let dir := (file.parent?.filter (·.text ≠ "")).getD ⟨p.cwd.text⟩
    .ok ⟨c.override p.environment, some file, warnings, dir⟩

/-- The configuration in a given file, else in the one that is found, else the initial one. -/
def read (p : Place) (t : FileTree) (file : Option Path) : Except TaskError Loaded :=
  match file.or (Config.discover t p.cwd p.environment (some ⟨p.cwd.text⟩)) with
  | some file => ofFile p t file
  | none => .ok ⟨Config.initial.override p.environment, none, [], ⟨p.cwd.text⟩⟩

def validate (l : Loaded) : Except TaskError Unit :=
  l.config.validate.mapError .config

/-- The directory of the artifacts kept. -/
def artifacts (l : Loaded) : ArtifactDirectory :=
  l.config.artifactsAt l.base

/-- A store with the artifacts kept, and their names. -/
def openStore (l : Loaded) (p : Place) (t : FileTree) : Except TaskError (Store × List Name) :=
  match l.artifacts.load t p.cwd with
  | .error e => .error (.loading l.artifacts.root e)
  | .ok kept =>
    match Store.empty.putAll kept with
    | .error e => .error (.kept e)
    | .ok (_, store) => .ok (store, kept.map (·.name))

end Loaded

/-! ## Sessions -/

/-- An engine with what it works on. -/
structure Session where
  loaded : Loaded
  command : Command
  listener : Listener
  /-- The names of the artifacts kept before. -/
  kept : List Name
  world : World FileTree

namespace Session

/-- Opens a session for work that may compile. -/
def start (p : Place) (l : Loaded) (listener : Listener) (t : FileTree) :
    Except TaskError Session :=
  match l.validate, l.config.command? with
  | .error e, _ => .error e
  | .ok (), none => .error .noCompiler
  | .ok (), some command =>
    match l.openStore p t with
    | .error e => .error e
    | .ok (store, kept) =>
      .ok ⟨l, command, listener, kept, ⟨.fresh p.now store l.config.ttl, t⟩⟩

def settings (s : Session) : Settings where
  isRemote := s.loaded.config.policy.isRemote
  builtin := s.loaded.config.builtin
  repository := "directory"
  backend := "command"
  reentrant := s.command.concurrent
  listener := s.listener

/-! ## Sources and the compiler -/

/-- What the directory of sources says about a name. -/
def fetch (p : Place) (s : Session) (name : Name) (t : FileTree) : FetchReply :=
  match (s.loaded.config.sourcesAt s.loaded.base).fetch t p.cwd name with
  | .ok (some u) => .unit u
  | .ok none => .missing
  | .error (.fetch e) => .failed e
  | .error (.extension _) => .crashed

/-- Whether what takes some nanoseconds ends before nobody waits for it any more. -/
def inTime (limit : Option Duration) (nanos : Nat) : Bool :=
  match limit with
  | none => true
  | some d => nanos < d.nanos

/-- What the engine is told of the end of a compiler run. -/
def reply : BuildEnd → BuildReply
  | .output o => .output o
  | .failed f => .failed f
  | .crashed _ => .crashed

/-- A run of the compiler for a job. -/
def buildRun (p : Place) (s : Session) (job : Job) (processors : ProcessorSet)
    (stored : List Artifact) (t : FileTree) : BuildRun :=
  s.command.build p.programs p.environment.temporaryRoot p.cwd t job.units processors stored

/-- Runs the compiler. A run that takes too long has no answer; what it leaves is told when all
calls are over (`abandon`). -/
def build (p : Place) (s : Session) (job : Job) (processors : ProcessorSet)
    (stored : List Artifact) (t : FileTree) : FileTree × Option BuildReply :=
  let run := s.buildRun p job processors stored t
  if inTime s.loaded.config.limits.compile run.elapsed then (run.tree, some (reply run.ending))
  else (t, none)

/-- The sources and the compiler of a session. -/
def host (p : Place) (s : Session) : Host FileTree where
  fetch _ name _ t :=
    (t, if inTime s.loaded.config.limits.fetch (p.delay name) then some (s.fetch p name t)
      else none)
  build _ job processors state t := s.build p job processors state.store.artifacts t
  meanwhile _ _ := []

/-! ## Calls -/

/-- The files after a job: a compiler that still runs goes on by itself, and its directory stays. -/
def afterJob (p : Place) (s : Session) (t : FileTree) (job : Job) : FileTree :=
  match job.stage, s.loaded.config.limits.compile with
  | .running processors, some d =>
    (s.buildRun p job processors s.world.state.store.artifacts t).abandoned (d.nanos + p.later)
  | _, _ => t

/-- Leaves the compiler runs alone that have not ended. -/
def abandon (p : Place) (s : Session) : Session :=
  { s with world := { s.world with
      host := s.world.state.jobs.foldl (s.afterJob p) s.world.host } }

/-- Makes a call. -/
def call (p : Place) (s : Session) (r : Request) : Session × Option Answer :=
  let made := s.world.call s.settings (s.host p) r
  (({ s with world := made.1 } : Session).abandon p, made.2)

/-- Looks a name up. -/
def resolve (p : Place) (s : Session) (name : Name) : Session × Except TaskError Resolution :=
  match s.call p (.resolve name s.loaded.config.limits) with
  | (s, some (.lookup (.resolved r))) => (s, .ok r)
  | (s, some (.lookup (.overflowed o))) => (s, .error (.overflow o))
  | (s, _) => (s, .error (.compiling (.abandoned .fetch)))

/-- Compiles units. -/
def compile (p : Place) (s : Session) (units : List SourceUnit) :
    Session × Except TaskError (Except CallError Report) :=
  match s.call p (.compile units s.loaded.config.limits) with
  | (s, some (.batch (.reported r))) => (s, .ok (.ok r))
  | (s, some (.batch (.failed e))) => (s, .ok (.error e))
  | (s, some (.batch (.overflowed o))) => (s, .error (.overflow o))
  | (s, _) => (s, .ok (.error (.abandoned .compile)))

/-- The artifacts that are not kept yet. -/
def fresh (s : Session) : List Artifact :=
  s.world.state.store.artifacts.filter (·.name ∉ s.kept)

/-- Keeps the artifacts that are new and tells how many they are. -/
def keep (p : Place) (s : Session) : FileTree × Except TaskError Nat :=
  match s.loaded.artifacts.save s.world.host p.cwd s.fresh with
  | (t, .ok ()) => (t, .ok s.fresh.length)
  | (t, .error e) => (t, .error (.keeping s.loaded.artifacts.root e))

/-- What was told, one line for each event, to a listener that wants it. -/
def told (s : Session) : List String :=
  if s.listener = .none then [] else s.world.state.told.map Event.line

end Session

end OnDemand.Cli
