import OnDemand.Engine.State

/-!
# Steps of the engine

`State.act` makes one move: a call or a job does the one thing its stage names, a deadline passes,
the repository or the compiler answers, or a caller uses the store directly. A move that is not
possible has no result. The runs of the engine are the sequences of moves, so every order in which
calls can interleave is one of them.
-/

namespace OnDemand.Engine

/-- A move of the engine or of its surroundings. -/
inductive Action where
  /-- A caller asks for something. -/
  | call (r : Request)
  /-- A call does the next thing by itself. -/
  | advance (call : Nat)
  /-- A call gives up waiting. -/
  | expire (call : Nat)
  /-- The repository answers a call. -/
  | fetched (call : Nat) (reply : FetchReply)
  /-- A job does the next thing by itself. -/
  | prepare (job : Nat)
  /-- The compiler ends a job. -/
  | built (job : Nat) (reply : BuildReply)
  /-- A job cannot be begun. -/
  | founder (job : Nat)
  | put (a : Artifact)
  | putAll (as : List Artifact)
  | forget (name : Name)
  | clearFailures
  /-- Time passes. -/
  | elapse (nanos : Nat)
deriving DecidableEq

namespace State

/-! ## Batches -/

/-- A batch that has ended: one that leads a flight has to end that first. -/
def endBatch (claims : Claims) (ending : BatchEnd) : BatchStage ⊕ BatchEnd :=
  match claims.guard? with
  | some g => .inl (.releasing g ending)
  | none => .inr ending

/-- Goes on to the next flight that a batch follows. -/
def followNext (s : State) (b : Batch) (rest : List (Name × Nat)) : BatchStage ⊕ BatchEnd :=
  match rest with
  | [] => .inl (.submitting b)
  | _ :: _ =>
    match b.limits.compile with
    | none => .inl (.following b rest none)
    | some limit =>
      match Moment.after? s.now limit with
      | some deadline => .inl (.following b rest (some deadline))
      | none => endBatch b.claims (.overflowed .deadline)

/-- The flight value that a batch's ending lands with. A batch that has handed nothing to the compiler
has no outcome to land with. -/
def flightOf : BatchEnd → Flight (Option CallError)
  | .reported r => if r.submitted.isEmpty then .abandoned else .landed none
  | .failed e => .landed (some e)
  | .overflowed _ => .abandoned

/-- Hands the pending units to the compiler, if there are any. -/
def submit (cfg : Settings) (s : State) (b : Batch) : State × (BatchStage ⊕ BatchEnd) :=
  let units := b.submission
  let names := units.map (·.name)
  if units.isEmpty then
    (if b.joined.isEmpty then s.tell (.compileSkipped b.requested.length) else s,
      endBatch b.claims (.reported (b.report [] [])))
  else
    let stage := if cfg.reentrant then JobStage.preparing else .queued
    let deadline := b.limits.compile.bind (Moment.after? s.now)
    ({ s with jobs := s.jobs ++ [⟨units, b.claims.done.length, stage⟩] },
      .inl (.building b names s.jobs.length deadline))

/-- Takes what a job ended with. -/
def receive (s : State) (b : Batch) (submitted : List Name) (e : JobEnd) :
    State × (BatchStage ⊕ BatchEnd) :=
  match e with
  | .ended (.output o) => (s, .inl (.storing b submitted o))
  | .ended (.failed f) =>
    (s.tell (.compileFailed b.requested f.message f.partials.length),
      endBatch b.claims (.failed (.compile b.requested f.message f.diagnostics)))
  | .ended .crashed | .unstarted =>
    let e := CallError.abandoned .compile
    (s.tell (.compileFailed b.requested e.message 0), endBatch b.claims (.failed e))

/-- Stores what the compiler made, all of it or nothing. -/
def keep (s : State) (b : Batch) (submitted : List Name) (output : BuildOutput) :
    State × (BatchStage ⊕ BatchEnd) :=
  match s.store.putAll output.artifacts with
  | .ok (produced, store) =>
    ({ s with store := store }.tell (.compiled submitted produced),
      endBatch b.claims (.reported (b.report submitted produced)))
  | .error e =>
    (s.tell (.compileFailed b.requested e.message output.artifacts.length),
      endBatch b.claims (.failed e))

/-- The next thing a batch does by itself, on behalf of a call. -/
def advanceBatch (cfg : Settings) (s : State) (call : Nat) :
    BatchStage → Option (State × (BatchStage ⊕ BatchEnd))
  | .entering units limits =>
    if s.claimant.isNone then
      let (flight, table) := s.building.begin
      some ({ s with building := table, claimant := some call },
        .inl (.claiming units limits (Name.distinct (units.map (·.name))) (.start flight)))
    else none
  | .claiming units limits (n :: rest) claims =>
    let (table, claims) := s.building.claimName (s.store.contains n) claims n
    some ({ s with building := table }, .inl (.claiming units limits rest claims))
  | .claiming units limits [] claims =>
    let s := { s with claimant := none }
    some (s, s.followNext ⟨units, limits, claims, claims.led, []⟩ claims.followed)
  | .following b ((n, flight) :: rest) _ =>
    match s.building.flight? flight with
    | some .pending => none
    | _ => some (s, .inl (.checking b n rest))
  | .following b [] _ => some (s, .inl (.submitting b))
  | .checking b n rest =>
    let b := if s.store.contains n then { b with joined := b.joined ++ [n] }
      else { b with pending := b.pending ++ [n] }
    some (s, s.followNext b rest)
  | .submitting b => some (s.submit cfg b)
  | .building b submitted job _ =>
    match s.jobs[job]? with
    | some ⟨_, _, .returned e⟩ => some (s.receive b submitted e)
    | _ => none
  | .storing b submitted output => some (s.keep b submitted output)
  | .releasing g ending =>
    if s.claimant.isNone then
      some ({ s with building := s.building.release g }, .inl (.landing g ending))
    else none
  | .landing g ending =>
    some ({ s with building := s.building.settle g.flight (flightOf ending) }, .inr ending)

/-- What a batch does when the time it may wait is over. -/
def expireBatch (s : State) : BatchStage → Option (State × (BatchStage ⊕ BatchEnd))
  | .following b ((n, flight) :: _) (some deadline) =>
    match s.building.flight? flight, b.limits.compile with
    | some .pending, some limit =>
      if deadline ≤ s.now then
        some (s.tell (.timedOut .wait (some n)),
          endBatch b.claims (.failed (.timedOut .wait limit)))
      else none
    | _, _ => none
  | .building b _ job (some deadline) =>
    match s.jobs[job]?, b.limits.compile with
    | some ⟨_, _, .returned _⟩, _ => none
    | _, some limit =>
      if deadline ≤ s.now then
        some (s.tell (.timedOut .compile none),
          endBatch b.claims (.failed (.timedOut .compile limit)))
      else none
    | _, none => none
  | _ => none

/-! ## Lookups -/

/-- Where a lookup goes when its batch moves. -/
def afterBatch (name : Name) (g : Guard) : BatchStage ⊕ BatchEnd → Stage
  | .inl stage => .compiling name g stage
  | .inr (.reported _) => .rechecking name g
  | .inr (.failed e) => .recording name g (.failed e)
  | .inr (.overflowed o) => .releasing g (.overflowed o)

/-- Where a call for a batch goes when the batch moves. -/
def afterOwnBatch : BatchStage ⊕ BatchEnd → Stage
  | .inl stage => .batch stage
  | .inr ending => .finished (.batch ending)

def resolved (r : Resolution) : Stage :=
  .finished (.lookup (.resolved r))

/-- Reads the store and tells a hit. -/
def read (cfg : Settings) (s : State) (name : Name) : State × Option Artifact :=
  match s.store.get? name with
  | some a => (s.tellLookup cfg (.cacheHit name), some a)
  | none => (s, none)

/-- Claims a name for a lookup, which then leads, follows, or reads the store again. -/
def claimLookup (s : State) (name : Name) (limits : Limits) : State × Stage :=
  let (table, claims) := s.resolving.claimBatch s.store.contains [name]
  let s := { s with resolving := table }
  match claims.followed, claims.guard? with
  | (_, flight) :: _, _ =>
    let s := s.tell (.joined name)
    match limits.total? with
    | none => (s, .finished (.lookup (.overflowed .durationSum)))
    | some none => (s, .following name flight none none)
    | some (some wait) =>
      match Moment.after? s.now wait with
      | some deadline => (s, .following name flight (some wait) (some deadline))
      | none => (s, .finished (.lookup (.overflowed .deadline)))
  | [], some g => (s, .departing name limits g)
  | [], none => (s, .rereading name)

/-- Remembers the failure a lookup ends with. -/
def record (s : State) (name : Name) (r : Resolution) : State × LookupEnd :=
  match s.failures, r with
  | some failures, .failed e =>
    match failures.record s.now name e with
    | (failures, .ok ()) => ({ s with failures := some failures }, .resolved r)
    | (failures, .error o) => ({ s with failures := some failures }, .overflowed o)
  | _, _ => (s, .resolved r)

/-- The flight value that a lookup's ending lands with. -/
def lookupFlight : LookupEnd → Flight Resolution
  | .resolved r => .landed r
  | .overflowed _ => .abandoned

/-- The next thing a call does by itself. -/
def advance (cfg : Settings) (s : State) (call : Nat) : Stage → Option (State × Stage)
  | .recalling name =>
    let (s, a) := s.read cfg name
    some (s, .finished (.stored a))
  | .looking name limits =>
    match s.read cfg name with
    | (s, some a) => some (s, resolved (.found a))
    | (s, none) => some (s, .missed name limits)
  | .missed name limits =>
    let remote := cfg.isRemote name
    some (s.tellLookup cfg (.cacheMiss name remote),
      if remote then .remembering name limits else resolved .absent)
  | .remembering name limits =>
    match s.failures with
    | none => some (s, .claiming name limits)
    | some failures =>
      match failures.lookup s.now name with
      | (some e, failures) =>
        some ({ s with failures := some failures }.tell (.negativeHit name), resolved (.failed e))
      | (none, failures) => some ({ s with failures := some failures }, .claiming name limits)
  | .claiming name limits => some (s.claimLookup name limits)
  | .rereading name =>
    let (s, a) := s.read cfg name
    some (s, resolved (.ofOption a))
  | .following _ flight _ _ =>
    match s.resolving.flight? flight with
    | some (.landed r) => some (s, resolved r)
    | some .abandoned => some (s, resolved (.failed (.abandoned .wait)))
    | _ => none
  | .departing name limits g =>
    some (s.tell (.fetchStarted name cfg.repository),
      .fetching name limits g (limits.fetch.bind (Moment.after? s.now)))
  | .fetching _ _ _ _ => none
  | .compiling name g stage =>
    (s.advanceBatch cfg call stage).map fun (s, next) => (s, afterBatch name g next)
  | .rechecking name g =>
    let (s, a) := s.read cfg name
    some (s, .recording name g (.ofOption a))
  | .recording name g r =>
    let (s, ending) := s.record name r
    some (s, .releasing g ending)
  | .releasing g ending =>
    some ({ s with resolving := s.resolving.release g }, .landing g ending)
  | .landing g ending =>
    some ({ s with resolving := s.resolving.settle g.flight (lookupFlight ending) },
      .finished (.lookup ending))
  | .batch stage =>
    (s.advanceBatch cfg call stage).map fun (s, next) => (s, afterOwnBatch next)
  | .finished _ => none

/-- What a call does when the time it may wait is over. -/
def expire (s : State) : Stage → Option (State × Stage)
  | .following name flight (some timeout) (some deadline) =>
    match s.resolving.flight? flight with
    | some .pending =>
      if deadline ≤ s.now then
        some (s.tell (.timedOut .wait (some name)), resolved (.failed (.timedOut .wait timeout)))
      else none
    | _ => none
  | .fetching name limits g (some deadline) =>
    match limits.fetch with
    | some limit =>
      if deadline ≤ s.now then
        some (s.tell (.timedOut .fetch (some name)),
          .recording name g (.failed (.timedOut .fetch limit)))
      else none
    | none => none
  | .compiling name g stage =>
    (s.expireBatch stage).map fun (s, next) => (s, afterBatch name g next)
  | .batch stage => (s.expireBatch stage).map fun (s, next) => (s, afterOwnBatch next)
  | _ => none

/-- What a call does with the answer of the repository. -/
def receiveFetch (cfg : Settings) (s : State) (reply : FetchReply) :
    Stage → Option (State × Stage)
  | .fetching name limits g _ =>
    match reply with
    | .unit u =>
      some (s.tell (.fetched name true), .compiling name g (.entering [u] limits))
    | .missing =>
      some (s.tell (.fetched name false), .recording name g (.failed (.resolution name
        ("not found in " ++ cfg.repository ++ " repository"))))
    | .failed e =>
      some (s.tell (.fetchFailed name e.message),
        .recording name g (.failed (.resolution name e.message)))
    | .crashed => some (s, .recording name g (.failed (.abandoned .fetch)))
  | _ => none

/-! ## Jobs -/

/-- The next thing a job does by itself. -/
def prepare (cfg : Settings) (s : State) (id : Nat) (job : Job) : Option State :=
  match job.stage with
  | .queued =>
    if s.occupant.isNone then some ({ s with occupant := some id }.setJob id .preparing) else none
  | .preparing =>
    let processors := Processors.available cfg.builtin s.store.artifacts
    some ((s.tell (.compileStarted cfg.backend (job.units.map (·.name)) job.skipped
      processors.size)).setJob id (.running processors))
  | _ => none

/-- Ends a job, which frees the compiler. -/
def finishJob (s : State) (id : Nat) (job : Job) (reply : BuildReply) : Option State :=
  match job.stage with
  | .running _ =>
    some ({ s with occupant := if s.occupant = some id then none else s.occupant }.setJob id
      (.returned (.ended reply)))
  | _ => none

/-- Gives up a job that has done nothing yet, and so has not got the compiler. -/
def giveUpJob (s : State) (id : Nat) (job : Job) : Option State :=
  if s.occupant ≠ some id ∧ (job.stage = .queued ∨ job.stage = .preparing) then
    some (s.setJob id (.returned .unstarted))
  else none

/-! ## Moves -/

/-- Gives a call its next state and stage. -/
def moveCall (id : Nat) : State × Stage → State
  | (s, stage) => s.setCall id stage

/-- One move, where it is possible. -/
def act (cfg : Settings) (s : State) : Action → Option State
  | .call r => some { s with calls := s.calls ++ [r.stage] }
  | .advance id => s.calls[id]?.bind fun stage => (s.advance cfg id stage).map (moveCall id)
  | .expire id => s.calls[id]?.bind fun stage => (s.expire stage).map (moveCall id)
  | .fetched id reply =>
    s.calls[id]?.bind fun stage => (s.receiveFetch cfg reply stage).map (moveCall id)
  | .prepare id => s.jobs[id]?.bind (s.prepare cfg id)
  | .built id reply => s.jobs[id]?.bind fun job => s.finishJob id job reply
  | .founder id => s.jobs[id]?.bind fun job => s.giveUpJob id job
  | .put a =>
    match s.store.put a with
    | .ok (_, store) => some { s with store := store }
    | .error _ => some s
  | .putAll as =>
    match s.store.putAll as with
    | .ok (_, store) => some { s with store := store }
    | .error _ => some s
  | .forget name => some { s with failures := s.failures.map fun f => (f.forget name).2 }
  | .clearFailures => some { s with failures := s.failures.map .clear }
  | .elapse nanos => some { s with now := s.now + nanos }

/-- `Reachable cfg s t`: some sequence of moves leads from `s` to `t`. -/
inductive Reachable (cfg : Settings) (s : State) : State → Prop where
  | refl : Reachable cfg s s
  | step {t u : State} (a : Action) : Reachable cfg s t → t.act cfg a = some u →
      Reachable cfg s u

end State

end OnDemand.Engine
