import OnDemand.Rehearsal.Stage

/-!
# Rehearsals

An engine with a scripted host, put through a list of things to do: calls made in turn or begun
and joined later, direct uses of the store, gates opened, time slept. Each thing done has a result
and shows what the engine told and asked of its host meanwhile.

The modules below this one are a stage for trials: scripts of a compiler, a shell that stands in for
the compilers of commands, and names as a caller sends them. Nothing that is proved rests on them.
-/

namespace OnDemand.Rehearsal

open Engine

/-- What an engine is set up with. -/
structure Setup where
  settings : Settings
  limits : Limits
  ttl : Option Duration
  sources : List (String × Source)
  notesFetches : Bool
  suffix : String
  cues : List Cue

/-- A call, with limits of its own where it has some. -/
inductive Call where
  | resolve (name : Name) (limits : Option Limits)
  /-- A lookup of which only the artifact is told. -/
  | resolvePlain (name : Name)
  | recall (name : Name)
  | compile (units : List SourceUnit) (limits : Option Limits)

/-- A thing to do. -/
inductive Deed where
  | call (c : Call)
  | spawn (handle : String) (c : Call)
  | join (handle : String)
  | openGate (gate : String)
  | get (name : Name)
  | has (name : Name)
  | forget (name : Name)
  | clearFailures
  | put (a : Artifact)
  | putAll (as : List Artifact)
  | snapshot
  | setSource (name : String) (s : Source)
  | setSuffix (suffix : String)
  | sleep (d : Duration)

/-- The result of a thing done. -/
inductive Result where
  | nothing
  | flag (b : Bool)
  | resolution (r : Resolution)
  | artifact (a : Option Artifact)
  | report (r : Report)
  | failed (e : CallError)
  | overflowed (o : Overflow)
  | artifacts (as : List Artifact)
  | put (outcome : PutOutcome)
  | inserted (names : List Name)
  /-- Whether a call that was begun has finished. -/
  | begun (finished : Bool)
  | noSuchCall

/-- An engine in rehearsal. -/
structure Play where
  setup : Setup
  world : World Props
  /-- The calls begun and not joined, by handle. -/
  handles : List (String × Nat × Call)

/-- The clock at the start, in nanoseconds: some while after its zero. -/
def clockStart : Moment := 1000000 * nanosPerSecond

namespace Play

def start (setup : Setup) : Play where
  setup := setup
  world :=
    { state := .fresh clockStart .empty setup.ttl
      host :=
        { sources := setup.sources
          notesFetches := setup.notesFetches
          suffix := setup.suffix
          gates := []
          cues := setup.cues
          fetching := []
          runs := []
          fetched := []
          invoked := [] } }
  handles := []

/-- What is asked of the engine for a call. -/
def request (setup : Setup) : Call → Request
  | .resolve name limits => .resolve name (limits.getD setup.limits)
  | .resolvePlain name => .resolve name setup.limits
  | .recall name => .recall name
  | .compile units limits => .compile units (limits.getD setup.limits)

/-- The result of a call that was answered. -/
def result (c : Call) : Answer → Result
  | .lookup (.overflowed o) => .overflowed o
  | .lookup (.resolved r) =>
    match c with
    | .resolvePlain _ => .artifact r.artifact?
    | _ => .resolution r
  | .batch (.reported r) => .report r
  | .batch (.failed e) => .failed e
  | .batch (.overflowed o) => .overflowed o
  | .stored a => .artifact a

/-- The result of a call, if it has been answered. -/
def resultOf (c : Call) : Option Answer → Result
  | some a => result c a
  | none => .nothing

def settings (r : Play) : Settings := r.setup.settings

/-- Lets everyone go on until nobody can move. -/
def settle (r : Play) : Play :=
  { r with world := r.world.settle r.settings Props.host (.call 0) }

def withState (r : Play) (f : State → State) : Play :=
  { r with world := { r.world with state := f r.world.state } }

def withProps (r : Play) (f : Props → Props) : Play :=
  { r with world := { r.world with host := f r.world.host } }

/-- Does one thing. -/
def perform (r : Play) : Deed → Play × Result
  | .call c =>
    let (w, answer) := r.world.call r.settings Props.host (request r.setup c)
    ({ r with world := w }, resultOf c answer)
  | .spawn handle c =>
    let (w, id) := r.world.start r.settings Props.host (request r.setup c)
    let w := w.settle r.settings Props.host (.call id)
    ({ r with world := w, handles := (handle, id, c) :: r.handles.filter (·.1 ≠ handle) },
      .begun (w.answer? id).isSome)
  | .join handle =>
    match r.handles.lookup handle with
    | none => (r, .noSuchCall)
    | some (id, c) =>
      let w := r.world.await r.settings Props.host id
      ({ r with world := w, handles := r.handles.filter (·.1 ≠ handle) },
        resultOf c (w.answer? id))
  | .openGate gate => ((r.withProps fun p => { p with gates := gate :: p.gates }).settle, .nothing)
  | .get name => (r, .artifact (r.world.state.store.get? name))
  | .has name => (r, .flag (r.world.state.store.contains name))
  | .forget name =>
    match r.world.state.failures with
    | none => (r, .flag false)
    | some f =>
      let (had, f) := f.forget name
      (r.withState fun s => { s with failures := some f }, .flag had)
  | .clearFailures =>
    (r.withState fun s => { s with failures := s.failures.map .clear }, .nothing)
  | .put a =>
    match r.world.state.store.put a with
    | .ok (outcome, store) => (r.withState fun s => { s with store := store }, .put outcome)
    | .error e => (r, .failed e)
  | .putAll as =>
    match r.world.state.store.putAll as with
    | .ok (names, store) => (r.withState fun s => { s with store := store }, .inserted names)
    | .error e => (r, .failed e)
  | .snapshot => (r, .artifacts r.world.state.store.artifacts)
  | .setSource name source =>
    (r.withProps fun p =>
      { p with sources := (name, source) :: p.sources.filter (·.1 ≠ name) }, .nothing)
  | .setSuffix suffix => (r.withProps fun p => { p with suffix := suffix }, .nothing)
  | .sleep d => ({ r with world := r.world.sleep r.settings Props.host d }, .nothing)

/-- What a thing done shows. -/
structure Shown where
  result : Result
  events : List Event
  invoked : List Invocation
  fetched : List Name
  stored : Nat

/-- Does one thing and shows what went on meanwhile. -/
def step (r : Play) (d : Deed) : Play × Shown :=
  let (r', result) := r.perform d
  let r' := r'.settle
  let told := r.world.state.told.length
  let before := r.world.host
  let after := r'.world.host
  (r',
    { result := result
      events := r'.world.state.told.drop told
      invoked := after.invoked.drop before.invoked.length
      fetched := after.fetched.drop before.fetched.length
      stored := r'.world.state.store.size })

end Play

end OnDemand.Rehearsal
