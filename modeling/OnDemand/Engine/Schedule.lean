import OnDemand.Engine.Step

/-!
# A schedule for the engine

One fair order of the moves. Whoever moved last goes on as long as it can, then the first call that
can move does, then the first job; when nobody can move, the clock runs to the next deadline. The
repository and the compiler are a host, whose own state is carried along: asked for an answer, it
gives one or none yet.
-/

namespace OnDemand.Engine

/-- A repository and a compiler. -/
structure Host (σ : Type) where
  /-- Asked by a call for the source of a name. -/
  fetch : Nat → Name → State → σ → σ × Option FetchReply
  /-- Asked for the result of a job that runs with some processors. -/
  build : Nat → Job → ProcessorSet → State → σ → σ × Option BuildReply
  /-- What others store at the moment an event is told. -/
  meanwhile : Event → σ → List Artifact

/-- Who makes a move. -/
inductive Actor where
  | call (id : Nat)
  | job (id : Nat)
deriving DecidableEq

/-- An engine and the state of its host. -/
structure World (σ : Type) where
  state : State
  host : σ

namespace Stage

/-- The name that a call waits for the repository to give. -/
def fetching? : Stage → Option Name
  | .fetching name _ _ _ => some name
  | _ => none

/-- When a batch gives up waiting. -/
def batchDeadline? : BatchStage → Option Moment
  | .following _ _ deadline => deadline
  | .building _ _ _ deadline => deadline
  | _ => none

/-- When a call gives up waiting. -/
def deadline? : Stage → Option Moment
  | .following _ _ _ deadline => deadline
  | .fetching _ _ _ deadline => deadline
  | .compiling _ _ stage => batchDeadline? stage
  | .batch stage => batchDeadline? stage
  | _ => none

def answer? : Stage → Option Answer
  | .finished a => some a
  | _ => none

end Stage

namespace World

variable {σ : Type} (cfg : Settings) (host : Host σ)

/-- Makes a move, and lets others store what they store when its events are told. -/
def act (w : World σ) (a : Action) : Option (World σ) :=
  (w.state.act cfg a).map fun s =>
    let heard := s.told.drop w.state.told.length
    let arrived := heard.flatMap fun e => host.meanwhile e w.host
    { w with state := arrived.foldl (fun s a => (s.act cfg (.put a)).getD s) s }

/-- Lets a call move. A deadline that has come goes before an answer that has come as well. -/
def turnCall (w : World σ) (id : Nat) : World σ × Bool :=
  match w.state.calls[id]?.bind Stage.fetching? with
  | some name =>
    let (h, reply) := host.fetch id name w.state w.host
    let w := { w with host := h }
    match w.act cfg host (.expire id), reply.bind fun r => w.act cfg host (.fetched id r) with
    | some w', _ => (w', true)
    | none, some w' => (w', true)
    | none, none => (w, false)
  | none =>
    match w.act cfg host (.advance id), w.act cfg host (.expire id) with
    | some w', _ => (w', true)
    | none, some w' => (w', true)
    | none, none => (w, false)

/-- Lets a job move. -/
def turnJob (w : World σ) (id : Nat) : World σ × Bool :=
  match w.state.jobs[id]? with
  | some job =>
    match job.stage with
    | .running processors =>
      let (h, reply) := host.build id job processors w.state w.host
      let w := { w with host := h }
      match reply.bind fun r => w.act cfg host (.built id r) with
      | some w' => (w', true)
      | none => (w, false)
    | _ =>
      match w.act cfg host (.prepare id) with
      | some w' => (w', true)
      | none => (w, false)
  | none => (w, false)

def turn (w : World σ) : Actor → World σ × Bool
  | .call id => w.turnCall cfg host id
  | .job id => w.turnJob cfg host id

/-- All calls and then all jobs, in the order they began. -/
def actors (w : World σ) : List Actor :=
  (List.range w.state.calls.length).map .call ++ (List.range w.state.jobs.length).map .job

/-- Lets the first of some actors that can do so move. -/
def turnFirst (w : World σ) : List Actor → World σ × Option Actor
  | [] => (w, none)
  | a :: as =>
    match w.turn cfg host a with
    | (w, true) => (w, some a)
    | (w, false) => turnFirst w as

/-- Moves until nobody can, at most a number of times. -/
def settleWithin : Nat → Actor → World σ → World σ
  | 0, _, w => w
  | n + 1, last, w =>
    match w.turnFirst cfg host (last :: w.actors) with
    | (w, some a) => settleWithin n a w
    | (w, none) => w

/-- The names that the calls of an engine have to go through. -/
def stageNames : Stage → Nat
  | .batch (.entering units _) => units.length
  | .batch (.claiming units _ _ _) => units.length
  | .batch (.following b _ _) => b.units.length
  | .batch (.checking b _ _) => b.units.length
  | _ => 1

/-- More moves than are left before nobody can move: a call makes a bounded number and three for
each of its names, and a job makes three. -/
def movesLeft (w : World σ) : Nat :=
  w.state.calls.foldl (fun n c => n + 60 + 4 * stageNames c) (8 * w.state.jobs.length + 60)

/-- Moves until nobody can. -/
def settle (w : World σ) (first : Actor) : World σ :=
  settleWithin cfg host w.movesLeft first w

/-- The next deadline of any call. -/
def nextDeadline? (w : World σ) : Option Moment :=
  (w.state.calls.filterMap Stage.deadline?).min?

/-- Lets the clock run to a moment. -/
def elapseTo (w : World σ) (t : Moment) : World σ :=
  (w.act cfg host (.elapse (t - w.state.now))).getD w

def answer? (w : World σ) (id : Nat) : Option Answer :=
  w.state.calls[id]?.bind Stage.answer?

/-- Waits for a call, through the deadlines of whoever waits, and then until nobody can move. Each
turn ends at least one wait, so as many turns as there are calls and jobs, three times over, do. -/
def awaitWithin (id : Nat) : Nat → World σ → World σ
  | 0, w => w
  | n + 1, w =>
    let w := w.settle cfg host (.call id)
    if (w.answer? id).isSome then w
    else match w.nextDeadline? with
      | some t => awaitWithin id n (w.elapseTo cfg host t)
      | none => w

def await (w : World σ) (id : Nat) : World σ :=
  awaitWithin cfg host id (w.movesLeft + 1) w

/-- Lets the clock run to a moment, through all deadlines before it. -/
def sleepWithin (t : Moment) : Nat → World σ → World σ
  | 0, w => w
  | n + 1, w =>
    match w.nextDeadline? with
    | some d =>
      if d ≤ t then sleepWithin t n ((w.elapseTo cfg host d).settle cfg host (.call 0))
      else w.elapseTo cfg host t
    | none => w.elapseTo cfg host t

def sleep (w : World σ) (d : Duration) : World σ :=
  sleepWithin cfg host (w.state.now + d.nanos) (w.movesLeft + 1) w

/-- Starts a call and tells its number. -/
def start (w : World σ) (r : Request) : World σ × Nat :=
  ((w.act cfg host (.call r)).getD w, w.state.calls.length)

/-- Makes a call and waits for its answer. -/
def call (w : World σ) (r : Request) : World σ × Option Answer :=
  let (w, id) := w.start cfg host r
  let w := w.await cfg host id
  (w, w.answer? id)

end World

end OnDemand.Engine
