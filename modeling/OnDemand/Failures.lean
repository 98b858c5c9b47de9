import OnDemand.Error

/-!
# Remembered failures

A failed lookup is remembered for a fixed time, so that it is not tried again at once. Timeouts
and lost work are not remembered. Each record drops the failures that have expired, and a lookup
drops the one it finds expired.
-/

namespace OnDemand

/-- A remembered failure. -/
structure Failure where
  name : Name
  error : CallError
  expires : Moment
deriving DecidableEq

/-- The failures remembered for a time. -/
structure Failures where
  ttl : Duration
  entries : List Failure
deriving DecidableEq

namespace Failures

def empty (ttl : Duration) : Failures := ⟨ttl, []⟩

def size (f : Failures) : Nat :=
  f.entries.length

def find? (f : Failures) (n : Name) : Option Failure :=
  f.entries.find? (·.name = n)

/-- Forgets the failure of a name. -/
def erase (f : Failures) (n : Name) : Failures :=
  { f with entries := f.entries.filter (·.name ≠ n) }

/-- Forgets the failures that have expired. -/
def sweep (f : Failures) (now : Moment) : Failures :=
  { f with entries := f.entries.filter (now < ·.expires) }

/-- Remembers a failure if it is lasting. The expired ones go first, even where the moment of
expiry cannot be told. -/
def record (f : Failures) (now : Moment) (n : Name) (e : CallError) :
    Failures × Except Overflow Unit :=
  if e.isLasting then
    let kept := f.sweep now
    match Moment.after? now f.ttl with
    | some expires => ({ kept with entries := (kept.erase n).entries ++ [⟨n, e, expires⟩] }, .ok ())
    | none => (kept, .error .deadline)
  else (f, .ok ())

/-- The failure remembered for a name. -/
def lookup (f : Failures) (now : Moment) (n : Name) : Option CallError × Failures :=
  match f.find? n with
  | none => (none, f)
  | some entry => if now < entry.expires then (some entry.error, f) else (none, f.erase n)

/-- Forgets the failure of a name and tells whether there was one. -/
def forget (f : Failures) (n : Name) : Bool × Failures :=
  ((f.find? n).isSome, f.erase n)

def clear (f : Failures) : Failures :=
  { f with entries := [] }

end Failures

end OnDemand
