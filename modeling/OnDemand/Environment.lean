import OnDemand.FileTree

/-!
# Environments

The variables that a process is started with.
-/

namespace OnDemand

/-- The variables of an environment; of two with one name the first counts. -/
abbrev Environment := List (String × String)

namespace Environment

/-- Where temporary directories are made. -/
def temporaryRoot (env : Environment) : Path :=
  ⟨(env.lookup "TMPDIR").getD "/tmp"⟩

end Environment

namespace Location

/-- The text of a location. -/
def text (l : Location) : String :=
  "/" ++ "/".intercalate l

/-- The path from the root to where a path leads from a location. -/
def resolve (l : Location) (p : Path) : Path :=
  Path.join ⟨text l⟩ p

end Location

end OnDemand
