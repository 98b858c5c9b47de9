import OnDemand.FileTree

/-!
# Programs

What a program does to the files when it is run with arguments, what it writes to its error
stream, and how it ends. `Programs` says this of all programs at once.
-/

namespace OnDemand

/-- The signals that end a program, by name. -/
def signals : List (String × Nat) :=
  [("HUP", 1), ("INT", 2), ("QUIT", 3), ("ILL", 4), ("TRAP", 5), ("ABRT", 6), ("BUS", 7),
    ("FPE", 8), ("KILL", 9), ("USR1", 10), ("SEGV", 11), ("USR2", 12), ("PIPE", 13), ("ALRM", 14),
    ("TERM", 15), ("STKFLT", 16), ("XCPU", 24), ("XFSZ", 25), ("VTALRM", 26), ("PROF", 27),
    ("IO", 29), ("PWR", 30), ("SYS", 31)]

/-- How a program ends. -/
inductive ExitStatus where
  | code (n : Nat)
  | signal (n : Nat)
deriving DecidableEq

namespace ExitStatus

def text : ExitStatus → String
  | code n => "exit status: " ++ toString n
  | signal n =>
    let name := match signals.find? (·.2 = n) with
      | some (name, _) => " (SIG" ++ name ++ ")"
      | none => ""
    "signal: " ++ toString n ++ name

end ExitStatus

/-- Why a program could not be started. -/
inductive StartError where
  | file (e : FileError)
  /-- The name or an argument holds the character NUL. -/
  | nulInArgument
deriving DecidableEq

namespace StartError

def message : StartError → String
  | file e => e.message
  | nulInArgument => "nul byte found in provided data"

end StartError

/-- What a program that has ended leaves behind. -/
structure ProgramRun where
  tree : FileTree
  /-- What it wrote to its error stream. -/
  errors : ByteArray
  status : ExitStatus
  /-- How many nanoseconds it took, as far as it waited. -/
  elapsed : Nat
  /-- The files some nanoseconds after its start, as long as it runs. -/
  partway : Nat → FileTree
  /-- What it has kept others from reading. -/
  denied : Denials := .none

/-- The files some nanoseconds after the start of a program. -/
def ProgramRun.treeAt (r : ProgramRun) (nanos : Nat) : FileTree :=
  if nanos < r.elapsed then r.partway nanos else r.tree

/-- What a program does: from its name and arguments, the working directory and the files. -/
abbrev Programs :=
  String → List String → Location → FileTree → Except StartError ProgramRun

end OnDemand
