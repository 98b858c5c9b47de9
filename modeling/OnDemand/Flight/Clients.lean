import OnDemand.Flight

/-!
# Clients of a table of flights

Any number of clients claim names, end what they lead and wait for what they follow, in any order. A
guard ends in two moves: its names leave the table, and later its flight ends and whoever waits for it
is woken. Between the two others may claim the names anew. The moment until which a client waits is
computed before it looks at the flight, and one that the clock cannot show breaks the run off.
-/

namespace OnDemand

variable {α : Type}

/-- How far a guard has come to its end. -/
inductive Tenure (α : Type) where
  | live
  /-- Its names are out of the table. -/
  | leaving (outcome : Flight α)
  | ended (outcome : Flight α)
deriving DecidableEq

namespace Tenure

/-- How the guard has begun to end. -/
def outcome? : Tenure α → Option (Flight α)
  | live => none
  | leaving o => some o
  | ended o => some o

def flight : Tenure α → Flight α
  | ended o => o
  | _ => .pending

end Tenure

/-- A claim that was made and what became of its guard. -/
structure Claimant (α : Type) where
  claims : Claims
  tenure : Tenure α
deriving DecidableEq

namespace Claimant

def live? (k : Claimant α) : Option Guard :=
  match k.tenure with
  | .live => k.claims.guard?
  | _ => none

/-- What a claimant holds: its guard, and while it leaves only the flight. -/
def held? (k : Claimant α) : Option Guard :=
  match k.tenure with
  | .live => k.claims.guard?
  | .leaving _ => some ⟨k.claims.flight, []⟩
  | .ended _ => none

end Claimant

inductive WaitEnd (α : Type) where
  /-- The flight has ended. -/
  | told (outcome : Flight α)
  | timedOut
  | overflowed (o : Overflow)
deriving DecidableEq

structure Wait (α : Type) where
  flight : Nat
  since : Moment
  timeout : Option Duration
  ending : Option (WaitEnd α)
deriving DecidableEq

namespace Wait

def deadline? (w : Wait α) : Option Moment :=
  w.timeout.bind (Moment.after? w.since)

/-- The wait has an end that the clock cannot show. -/
def Endless (w : Wait α) : Prop :=
  w.timeout.map (Moment.after? w.since) = some none

instance (w : Wait α) : Decidable w.Endless :=
  inferInstanceAs (Decidable (_ = _))

end Wait

/-- A table of flights with all that its clients have done. -/
structure Clients (α : Type) where
  now : Moment
  table : FlightTable α
  claimants : List (Claimant α)
  waits : List (Wait α)
  /-- What has broken the run off. -/
  broken : Option Overflow

namespace Clients

def fresh (now : Moment) : Clients α := ⟨now, .empty, [], [], none⟩

def live? (s : Clients α) (c : Nat) : Option Guard :=
  s.claimants[c]?.bind Claimant.live?

def held? (s : Clients α) (c : Nat) : Option Guard :=
  s.claimants[c]?.bind Claimant.held?

/-- What a client can do, or time. -/
inductive Op (α : Type) where
  | claim (name : Name) (done : Name → Bool)
  | claimBatch (names : List Name) (done : Name → Bool)
  /-- A guard begins to end with a value. -/
  | complete (claimant : Nat) (value : α)
  /-- A guard begins to end without a value. -/
  | drop (claimant : Nat)
  /-- A guard that has begun to end ends its flight. -/
  | land (claimant : Nat)
  /-- A claimant begins to wait for the flight that it follows for a name. -/
  | wait (claimant : Nat) (name : Name) (timeout : Option Duration)
  /-- A wait is over. -/
  | wake (wait : Nat)
  | elapse (nanos : Nat)

/-- The claimant whose guard begins to end, and how its flight is to end. -/
def Op.ending? : Op α → Option (Nat × Flight α)
  | complete c value => some (c, .landed value)
  | drop c => some (c, .abandoned)
  | _ => none

def claim (s : Clients α) (names : List Name) (done : Name → Bool) : Clients α :=
  { s with
    table := (s.table.claimBatch done names).1
    claimants := s.claimants ++ [⟨(s.table.claimBatch done names).2, .live⟩] }

def leave (s : Clients α) (c : Nat) (outcome : Flight α) : Option (Clients α) :=
  match s.claimants[c]? with
  | some ⟨claims, .live⟩ => claims.guard?.map fun g =>
    { s with table := s.table.release g, claimants := s.claimants.set c ⟨claims, .leaving outcome⟩ }
  | _ => none

def land (s : Clients α) (c : Nat) : Option (Clients α) :=
  match s.claimants[c]? with
  | some ⟨claims, .leaving outcome⟩ => some
    { s with
      table := s.table.settle claims.flight outcome
      claimants := s.claimants.set c ⟨claims, .ended outcome⟩ }
  | _ => none

/-- Begins a wait for a flight. -/
def beginWait (s : Clients α) (f : Nat) (timeout : Option Duration) : Clients α :=
  let w : Wait α := ⟨f, s.now, timeout, none⟩
  if w.Endless then
    { s with
      waits := s.waits ++ [{ w with ending := some (.overflowed .deadline) }]
      broken := some .deadline }
  else { s with waits := s.waits ++ [w] }

def wait (s : Clients α) (c : Nat) (n : Name) (timeout : Option Duration) : Option (Clients α) :=
  (s.claimants[c]?.bind fun k => k.claims.followed.lookup n).map (s.beginWait · timeout)

/-- How a wait ends, unless it has to go on. -/
def endOf? (s : Clients α) (w : Wait α) : Option (WaitEnd α) :=
  match s.table.flight? w.flight with
  | none => none
  | some .pending => if w.deadline?.any (· ≤ s.now) then some .timedOut else none
  | some f => some (.told f)

def wake (s : Clients α) (i : Nat) : Option (Clients α) :=
  (s.waits[i]?.filter (·.ending.isNone)).bind fun w => (s.endOf? w).map fun e =>
    { s with waits := s.waits.set i { w with ending := some e } }

/-- What a client does. -/
def act (s : Clients α) : Op α → Option (Clients α)
  | .claim n done => some (s.claim [n] done)
  | .claimBatch names done => some (s.claim names done)
  | .complete c value => s.leave c (.landed value)
  | .drop c => s.leave c .abandoned
  | .land c => s.land c
  | .wait c n timeout => s.wait c n timeout
  | .wake i => s.wake i
  | .elapse nanos => some { s with now := s.now + nanos }

/-- One move of a client, where it is possible. -/
def step (s : Clients α) (op : Op α) : Option (Clients α) :=
  if s.broken.isSome then none else s.act op

def perform (s : Clients α) (ops : List (Op α)) : Option (Clients α) :=
  ops.foldlM step s

end Clients

end OnDemand
