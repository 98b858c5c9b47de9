/-!
# Compiler commands

How a compiler is called: the program, the arguments that come first, the flags before the values
that follow, and the extensions of the files it reads and writes.
-/

namespace OnDemand

/-- How a compiler is called, whatever program it is. -/
structure CommandForm where
  arguments : List String
  processorFlag : String
  outputFlag : String
  /-- The flag before the directory of stored artifacts; without it they are not offered. -/
  linkFlag : Option String
  sourceExtension : String
  artifactExtension : String
  /-- What stands between segments in names made from paths. -/
  separator : Char
  /-- Whether two runs may overlap. -/
  concurrent : Bool
deriving DecidableEq

/-- A compiler and how it is called. -/
structure Command extends CommandForm where
  program : String
deriving DecidableEq

end OnDemand
