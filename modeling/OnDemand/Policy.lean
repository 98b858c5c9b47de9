import OnDemand.Name

/-!
# Which names may be fetched

Names are remote when they begin with one of the remote prefixes and with none of the platform
prefixes; the platform's own units are never fetched.
-/

namespace OnDemand

/-- The prefixes that decide which names may be fetched. -/
structure Policy where
  remote : List String
  platform : List String
deriving DecidableEq

namespace Policy

/-- The policy under which nothing is fetched. -/
def closed : Policy := ⟨[], []⟩

/-- Takes further prefixes out of the remote names. -/
def excluding (p : Policy) (platform : List String) : Policy :=
  { p with platform := p.platform ++ platform }

def isRemote (p : Policy) (n : Name) : Bool :=
  !p.platform.any n.startsWith && p.remote.any n.startsWith

@[simp]
theorem isRemote_closed (n : Name) : closed.isRemote n = false := rfl

end Policy

end OnDemand
