import OnDemand.Event
import OnDemand.Failures
import OnDemand.Flight
import OnDemand.Processors
import OnDemand.Store

/-!
# The state of the engine

Any number of calls work at the same time over one store, one table of lookups in flight and one
of compilations in flight. A call stands at a stage, and each stage names the one thing the call
does next to the shared state. A compiler run is a job of its own, because it goes on when the
call that started it has given up.
-/

namespace OnDemand

/-- What a lookup found. -/
inductive Resolution where
  | found (a : Artifact)
  | absent
  | failed (e : CallError)
deriving DecidableEq

namespace Resolution

def ofOption : Option Artifact → Resolution
  | some a => found a
  | none => absent

def artifact? : Resolution → Option Artifact
  | found a => some a
  | _ => none

end Resolution

/-- What became of the units of a batch. -/
structure Report where
  requested : List Name
  /-- Stored when the batch began. -/
  skipped : List Name
  /-- Stored by another batch while this one waited for it. -/
  joined : List Name
  /-- Handed to the compiler. -/
  submitted : List Name
  /-- New in the store, in ascending order. -/
  produced : List Name
deriving DecidableEq

namespace Engine

/-- What stays the same for the life of an engine. -/
structure Settings where
  /-- Which names may be fetched. Any test of names can be a policy. -/
  isRemote : Name → Bool
  builtin : ProcessorSet
  /-- The name of the repository in events. -/
  repository : String
  /-- The name of the compiler in events. -/
  backend : String
  /-- Whether the compiler may run several times at once. -/
  reentrant : Bool
  listener : Listener

/-- What the repository says about a name. -/
inductive FetchReply where
  | unit (u : SourceUnit)
  | missing
  | failed (e : FetchError)
  /-- The fetch broke down, or could not even be begun. -/
  | crashed
deriving DecidableEq

/-- What a compiler run ends with. -/
inductive BuildReply where
  | output (o : BuildOutput)
  | failed (f : BuildFailure)
  | crashed
deriving DecidableEq

/-- How a job ends. -/
inductive JobEnd where
  /-- It could not even be begun, as when no thread can be had for it. -/
  | unstarted
  | ended (reply : BuildReply)
deriving DecidableEq

/-- Where a compiler run stands. -/
inductive JobStage where
  /-- Waiting for the compiler to be free. -/
  | queued
  /-- About to look for processors. -/
  | preparing
  | running (processors : ProcessorSet)
  | returned (e : JobEnd)
deriving DecidableEq

/-- A compiler run. -/
structure Job where
  units : List SourceUnit
  /-- How many names of its batch were stored before. -/
  skipped : Nat
  stage : JobStage
deriving DecidableEq

/-- A batch of units after its claim. -/
structure Batch where
  units : List SourceUnit
  limits : Limits
  claims : Claims
  /-- Names to hand to the compiler. -/
  pending : List Name
  joined : List Name
deriving DecidableEq

namespace Batch

def requested (b : Batch) : List Name :=
  b.units.map (·.name)

/-- The first unit of each pending name, in the order of the batch. -/
def submission (b : Batch) : List SourceUnit :=
  firsts [] (b.units.filter (·.name ∈ b.pending))
where
  firsts (seen : List Name) : List SourceUnit → List SourceUnit
    | [] => []
    | u :: us => if u.name ∈ seen then firsts seen us else u :: firsts (u.name :: seen) us

def report (b : Batch) (submitted produced : List Name) : Report :=
  ⟨b.requested, b.claims.done, b.joined, submitted, produced⟩

end Batch

/-- How a batch ends. -/
inductive BatchEnd where
  | reported (r : Report)
  | failed (e : CallError)
  | overflowed (o : Overflow)
deriving DecidableEq

/-- Where a batch stands. -/
inductive BatchStage where
  /-- About to take hold of the table. -/
  | entering (units : List SourceUnit) (limits : Limits)
  /-- Holds the table and claims the rest of its names. -/
  | claiming (units : List SourceUnit) (limits : Limits) (rest : List Name) (claims : Claims)
  /-- Waits for the flight of the first of the names it follows. -/
  | following (b : Batch) (rest : List (Name × Nat)) (deadline : Option Moment)
  /-- About to see whether a flight stored a name. -/
  | checking (b : Batch) (name : Name) (rest : List (Name × Nat))
  | submitting (b : Batch)
  /-- Waits for a compiler run. -/
  | building (b : Batch) (submitted : List Name) (job : Nat) (deadline : Option Moment)
  /-- About to store what the compiler made. -/
  | storing (b : Batch) (submitted : List Name) (output : BuildOutput)
  /-- About to take its names out of the table. -/
  | releasing (g : Guard) (ending : BatchEnd)
  /-- About to end its flight. -/
  | landing (g : Guard) (ending : BatchEnd)
deriving DecidableEq

/-- How a lookup ends. -/
inductive LookupEnd where
  | resolved (r : Resolution)
  | overflowed (o : Overflow)
deriving DecidableEq

/-- What a call answers. -/
inductive Answer where
  | lookup (ending : LookupEnd)
  | batch (ending : BatchEnd)
  | stored (a : Option Artifact)
deriving DecidableEq

/-- Where a call stands. -/
inductive Stage where
  /-- About to read the store and answer. -/
  | recalling (name : Name)
  /-- About to read the store. -/
  | looking (name : Name) (limits : Limits)
  /-- Not stored: about to ask the policy. -/
  | missed (name : Name) (limits : Limits)
  /-- May be fetched: about to look for a remembered failure. -/
  | remembering (name : Name) (limits : Limits)
  /-- About to claim the name. -/
  | claiming (name : Name) (limits : Limits)
  /-- Stored by now: about to read the store again. -/
  | rereading (name : Name)
  /-- Waits for the flight that has the name. -/
  | following (name : Name) (flight : Nat) (timeout : Option Duration) (deadline : Option Moment)
  /-- Leads a flight: about to fetch. -/
  | departing (name : Name) (limits : Limits) (g : Guard)
  /-- Waits for the repository. -/
  | fetching (name : Name) (limits : Limits) (g : Guard) (deadline : Option Moment)
  /-- Has the source: compiles it as a batch of one. -/
  | compiling (name : Name) (g : Guard) (batch : BatchStage)
  /-- Compiled: about to read the store. -/
  | rechecking (name : Name) (g : Guard)
  /-- About to remember a failure. -/
  | recording (name : Name) (g : Guard) (r : Resolution)
  /-- About to take its name out of the table. -/
  | releasing (g : Guard) (ending : LookupEnd)
  /-- About to end its flight. -/
  | landing (g : Guard) (ending : LookupEnd)
  /-- A batch that a caller asked for. -/
  | batch (stage : BatchStage)
  | finished (answer : Answer)
deriving DecidableEq

/-- What a caller can ask for. -/
inductive Request where
  /-- Look a name up, fetching and compiling it where that is allowed. -/
  | resolve (name : Name) (limits : Limits)
  /-- Look a name up in the store. -/
  | recall (name : Name)
  /-- Compile units. -/
  | compile (units : List SourceUnit) (limits : Limits)
deriving DecidableEq

namespace Request

/-- Where a call for a request begins. -/
def stage : Request → Stage
  | .resolve name limits => .looking name limits
  | .recall name => .recalling name
  | .compile units limits => .batch (.entering units limits)

end Request

/-- The state of an engine. Calls and jobs keep their places, and what was told is kept. -/
structure State where
  now : Moment
  store : Store
  failures : Option Failures
  /-- Lookups in flight. -/
  resolving : FlightTable Resolution
  /-- Compilations in flight, which land with their error if they have one. -/
  building : FlightTable (Option CallError)
  /-- The call that holds the table of compilations while it claims. -/
  claimant : Option Nat
  /-- The job that has the compiler, where it runs one at a time. -/
  occupant : Option Nat
  jobs : List Job
  calls : List Stage
  /-- The events told, oldest first. -/
  told : List Event

namespace State

/-- An engine that has not been called. -/
def fresh (now : Moment) (store : Store) (ttl : Option Duration) : State where
  now := now
  store := store
  failures := ttl.map .empty
  resolving := .empty
  building := .empty
  claimant := none
  occupant := none
  jobs := []
  calls := []
  told := []

def tell (s : State) (e : Event) : State :=
  { s with told := s.told ++ [e] }

/-- Tells a hit or a miss of the store to a listener that wants them. -/
def tellLookup (s : State) (cfg : Settings) (e : Event) : State :=
  if cfg.listener.wantsLookups then s.tell e else s

def setCall (s : State) (id : Nat) (stage : Stage) : State :=
  { s with calls := s.calls.set id stage }

def setJob (s : State) (id : Nat) (stage : JobStage) : State :=
  { s with jobs := s.jobs.modify id ({ · with stage := stage }) }

end State

end Engine

end OnDemand
