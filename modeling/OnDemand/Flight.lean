import OnDemand.Error

/-!
# Flights

Work on a name is done once for all who want it. Whoever claims a free name leads a flight, and a
name in the table leads others to the flight that has it; a claim of several names is one flight.
The leader holds a guard, which ends the flight by landing it with a value or by abandoning it, and
takes exactly its own names out of the table.
-/

namespace OnDemand

/-- How a flight stands. -/
inductive Flight (α : Type) where
  | pending
  | landed (value : α)
  | abandoned
deriving DecidableEq

/-- What a leader holds: its flight and the names it claimed. -/
structure Guard where
  flight : Nat
  names : List Name
deriving DecidableEq

/-- The names in flight, and all flights begun, by number. -/
structure FlightTable (α : Type) where
  claimed : List (Name × Nat)
  flights : List (Flight α)

/-- What a claim of several names is told: the names already done, those in another's flight, and
those that its own flight leads. -/
structure Claims where
  flight : Nat
  done : List Name
  followed : List (Name × Nat)
  led : List Name
deriving DecidableEq

namespace Claims

def start (flight : Nat) : Claims := ⟨flight, [], [], []⟩

/-- The guard of a claim that leads any name. -/
def guard? (c : Claims) : Option Guard :=
  if c.led.isEmpty then none else some ⟨c.flight, c.led⟩

end Claims

namespace FlightTable

variable {α : Type}

def empty : FlightTable α := ⟨[], []⟩

instance : Inhabited (FlightTable α) := ⟨empty⟩

/-- How many names are in flight. -/
def inFlight (t : FlightTable α) : Nat :=
  t.claimed.length

/-- The flight that has a name. -/
def flightOf? (t : FlightTable α) (n : Name) : Option Nat :=
  t.claimed.lookup n

def flight? (t : FlightTable α) (f : Nat) : Option (Flight α) :=
  t.flights[f]?

/-- Begins a flight that has no names yet. -/
def begin (t : FlightTable α) : Nat × FlightTable α :=
  (t.flights.length, { t with flights := t.flights ++ [.pending] })

/-- Claims one more name for a flight. A name in flight is followed even if it is done. -/
def claimName (t : FlightTable α) (done : Bool) (c : Claims) (n : Name) :
    FlightTable α × Claims :=
  match t.flightOf? n with
  | some f => (t, { c with followed := c.followed ++ [(n, f)] })
  | none =>
    if done then (t, { c with done := c.done ++ [n] })
    else ({ t with claimed := t.claimed ++ [(n, c.flight)] }, { c with led := c.led ++ [n] })

/-- Claims names one after the other for a flight. -/
def claimNames (done : Name → Bool) : FlightTable α → Claims → List Name → FlightTable α × Claims
  | t, c, [] => (t, c)
  | t, c, n :: ns =>
    let (t', c') := t.claimName (done n) c n
    claimNames done t' c' ns

/-- Claims several names at once. -/
def claimBatch (t : FlightTable α) (done : Name → Bool) (names : List Name) :
    FlightTable α × Claims :=
  let (f, t') := t.begin
  claimNames done t' (.start f) (Name.distinct names)

/-- Takes the names of a guard out of the table. -/
def release (t : FlightTable α) (g : Guard) : FlightTable α :=
  { t with claimed := t.claimed.filter fun e => !(e.1 ∈ g.names && e.2 == g.flight) }

/-- Ends a flight, unless it has ended. -/
def settle (t : FlightTable α) (f : Nat) (outcome : Flight α) : FlightTable α :=
  match t.flight? f with
  | some .pending => { t with flights := t.flights.set f outcome }
  | _ => t

end FlightTable

end OnDemand
