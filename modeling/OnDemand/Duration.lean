/-!
# Lengths of time

A length of time is a count of nanoseconds whose whole seconds fit in 64 bits. The clock counts
nanoseconds from some past moment and can show moments up to 2⁶³ seconds after it; a sum beyond
either bound does not exist.
-/

namespace OnDemand

def nanosPerSecond : Nat := 1000000000

/-- A length of time. -/
structure Duration where
  nanos : Nat
  inRange : nanos < 1 <<< 64 * nanosPerSecond
deriving DecidableEq

namespace Duration

/-- Whole seconds and further nanoseconds; a second's worth or more of the latter carries. -/
def ofParts? (secs nanos : Nat) : Option Duration :=
  let n := secs * nanosPerSecond + nanos
  if h : n < 1 <<< 64 * nanosPerSecond then some ⟨n, h⟩ else none

def ofSeconds? (secs : Nat) : Option Duration :=
  ofParts? secs 0

def ofMillis (ms : UInt64) : Duration :=
  ⟨ms.toNat * 1000000, by have := ms.toNat_lt; simp only [nanosPerSecond]; omega⟩

def ofSeconds (secs : UInt64) : Duration :=
  ⟨secs.toNat * nanosPerSecond, by have := secs.toNat_lt; simp only [nanosPerSecond]; omega⟩

def zero : Duration := ⟨0, by decide⟩

def secs (d : Duration) : Nat :=
  d.nanos / nanosPerSecond

/-- The nanoseconds beyond the whole seconds. -/
def subsecNanos (d : Duration) : Nat :=
  d.nanos % nanosPerSecond

/-- The sum, unless its seconds need more than 64 bits. -/
def add? (a b : Duration) : Option Duration :=
  if h : a.nanos + b.nanos < 1 <<< 64 * nanosPerSecond then some ⟨a.nanos + b.nanos, h⟩ else none

/-- The digits of a fraction over a power of ten with `width` places, without trailing zeros. -/
def fractionDigits (width value : Nat) : List Char :=
  let digits := (toString value).toList
  let padded := List.replicate (width - digits.length) '0' ++ digits
  (padded.reverse.dropWhile (· == '0')).reverse

def decimal (whole width fraction : Nat) (unit : String) : String :=
  let digits := fractionDigits width fraction
  toString whole ++ (if digits.isEmpty then "" else "." ++ String.ofList digits) ++ unit

/-- A length of time in the largest of the units s, ms, µs and ns in which it is at least one,
with as many decimals as it needs. -/
def text (d : Duration) : String :=
  if 0 < d.secs then decimal d.secs 9 d.subsecNanos "s"
  else if 1000000 ≤ d.nanos then decimal (d.nanos / 1000000) 6 (d.nanos % 1000000) "ms"
  else if 1000 ≤ d.nanos then decimal (d.nanos / 1000) 3 (d.nanos % 1000) "µs"
  else decimal d.nanos 0 0 "ns"

end Duration

/-- A moment on the clock, in nanoseconds. -/
abbrev Moment := Nat

namespace Moment

/-- The moment a length of time after another, if the clock can show it. -/
def after? (now : Moment) (d : Duration) : Option Moment :=
  if now + d.nanos < 1 <<< 63 * nanosPerSecond then some (now + d.nanos) else none

end Moment

/-- How long fetching and compiling may take; an absent bound is none. -/
structure Limits where
  fetch : Option Duration
  compile : Option Duration
deriving DecidableEq

namespace Limits

def unbounded : Limits := ⟨none, none⟩

instance : Inhabited Limits := ⟨unbounded⟩

/-- How long to wait for someone else to fetch and compile: the sum of both bounds, and no bound
where one is missing. `none` where the sum does not exist. -/
def total? (l : Limits) : Option (Option Duration) :=
  match l.fetch, l.compile with
  | some f, some c => (f.add? c).map some
  | _, _ => some none

end Limits

end OnDemand
