import OnDemand.Artifact

/-!
# Processors

The identifiers of extension processors that a compiler run is offered: a fixed list, and the
names of all stored artifacts that carry the processor capability. A compiler gets them as one
option value with commas between.
-/

namespace OnDemand

/-- A set of processor identifiers. -/
abbrev ProcessorSet := TextSet

namespace Processors

/-- The option value for a set, absent for the empty set. -/
def optionValue (s : ProcessorSet) : Option String :=
  if s.isEmpty then none else some (",".intercalate s.items)

/-- The built-in processors and those among the stored artifacts. -/
def available (builtin : ProcessorSet) (stored : List Artifact) : ProcessorSet :=
  builtin.insertAll ((stored.filter Artifact.isProcessor).map (·.name.text))

end Processors

end OnDemand
