import OnDemand.Engine.Schedule
import OnDemand.Rehearsal.Script

/-!
# A scripted host

A repository whose answers are listed by name, a compiler that follows its units' scripts, gates
that hold either up until they are opened, and artifacts that others store at the moment an event
is told.
-/

namespace OnDemand.Rehearsal

open Engine

/-- What the repository does about a name, besides waiting at a gate. -/
inductive Supply where
  | transport (message : String)
  | invalid (message : String)
  | crash
  /-- Gives a text, under another name where one is told. -/
  | text (called : Option Name) (text : String)
  | nothing

/-- An entry of the repository. -/
structure Source where
  gate : Option String
  supply : Supply

namespace Source

def plain (text : String) : Source := ⟨none, .text none text⟩

/-- The answer for a name. -/
def reply (s : Source) (name : Name) : FetchReply :=
  match s.supply with
  | .transport message => .failed (.transport message)
  | .invalid message => .failed (.invalidSource name message)
  | .crash => .crashed
  | .text called text => .unit ⟨called.getD name, text, .remote⟩
  | .nothing => .missing

end Source

/-- An event of which others take their cue, with the artifact that they store then. -/
structure Cue where
  /-- At a miss of the store, or at the start of a fetch. -/
  atMiss : Bool
  name : String
  artifact : Artifact

/-- A compiler run that was begun. -/
structure Invocation where
  units : List Name
  processors : Option String

/-- The state of the host. -/
structure Props where
  sources : List (String × Source)
  /-- Whether the names fetched are noted. -/
  notesFetches : Bool
  suffix : String
  gates : List String
  cues : List Cue
  /-- The calls whose fetch has begun, with the source found then. -/
  fetching : List (Nat × Option Source)
  runs : List (Nat × Run)
  /-- The names fetched and the runs begun, oldest first. -/
  fetched : List Name
  invoked : List Invocation

namespace Props

def isOpen (p : Props) (gate : String) : Bool :=
  gate ∈ p.gates

def reply? (p : Props) (name : Name) : Option Source → Option FetchReply
  | none => some .missing
  | some s =>
    match s.gate with
    | some gate => if p.isOpen gate then some (s.reply name) else none
    | none => some (s.reply name)

def fetch (call : Nat) (name : Name) (_ : State) (p : Props) : Props × Option FetchReply :=
  match p.fetching.lookup call with
  | some source => (p, p.reply? name source)
  | none =>
    let source := p.sources.lookup name.text
    let p := { p with
      fetching := (call, source) :: p.fetching
      fetched := if p.notesFetches then p.fetched ++ [name] else p.fetched }
    (p, p.reply? name source)

def setRun (p : Props) (job : Nat) (r : Run) : Props :=
  { p with runs := (job, r) :: p.runs.filter (·.1 ≠ job) }

def build (job : Nat) (j : Job) (processors : ProcessorSet) (s : State) (p : Props) :
    Props × Option BuildReply :=
  let noted : Invocation := ⟨j.units.map (·.name), Processors.optionValue processors⟩
  let (p, run) :=
    match p.runs.lookup job with
    | some run => (p, run)
    | none =>
      ({ p with invoked := p.invoked ++ [noted] }, Run.start j.units p.suffix processors)
  let (run, reply) := run.goOn s.store p.isOpen run.lines
  (p.setRun job run, reply)

def meanwhile (e : Event) (p : Props) : List Artifact :=
  let cued (atMiss : Bool) (n : Name) : List Artifact :=
    (p.cues.filter fun c => c.atMiss == atMiss && c.name == n.text).map (·.artifact)
  match e with
  | .cacheMiss name _ => cued true name
  | .fetchStarted name _ => cued false name
  | _ => []

/-- The scripted host. -/
def host : Host Props := ⟨fetch, build, meanwhile⟩

end Props

end OnDemand.Rehearsal
