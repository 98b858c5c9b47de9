import OnDemand.Environment
import OnDemand.Program
import OnDemand.Rehearsal.Shell.Run

/-!
# Programs of a small system

The shell and the utilities that scripts use, as programs by themselves. A name without a slash is
looked for among them; a path leads to one of them or to a file, and no file may be executed.
-/

namespace OnDemand.Rehearsal.Shell

/-- The names of the shell. -/
def shellNames : List String := ["sh", "dash", "bash"]

/-- The program of a name. -/
def isProgram (name : String) : Bool :=
  name ∈ shellNames || (utility? name).isSome

/-- The name of the program that a name or path leads to. -/
def findProgram (program : String) (cwd : Location) (t : FileTree) :
    Except FileError String :=
  if program.toList.any Path.isSlash then
    match (Path.mk program).components with
    | [.root, .name "bin", .name n] | [.root, .name "usr", .name "bin", .name n] =>
      if isProgram n then .ok n else .error .notFound
    | _ =>
      match t.look cwd ⟨program⟩ with
      | .error e => .error e
      | .ok _ => .error .permissionDenied
  else if isProgram program then .ok program
  else .error .notFound

/-- The utilities that take no long options, with the status of a refusal. -/
def strictUtilities : List (String × Nat) :=
  [("cat", 1), ("cp", 1), ("mv", 1), ("rm", 1), ("mkdir", 1), ("touch", 1), ("dirname", 1),
    ("basename", 1), ("tr", 1), ("pwd", 1), ("sleep", 1), ("ls", 2)]

/-- The first long option among some arguments. -/
def longOption? (args : List String) : Option String :=
  (args.takeWhile (· ≠ "--")).find? fun a => a.toList.take 2 == ['-', '-']

/-- Runs a program that was found, at most through a number of commands. -/
def runFound (n : Nat) (s : State) (name : String) (args : List String) : State × Flow :=
  if name ∈ shellNames then runProgram n s args
  else match strictUtilities.lookup name, longOption? args with
    | some status, some option =>
      ({ s.err (name ++ ": unrecognized option '" ++ option ++ "'\nTry '" ++ name ++
        " --help' for more information.\n") with status := status }, .go)
    | _, _ =>
      match utility? name with
      | some f =>
        let (s, status) := f s args
        ({ s with status := status }, .go)
      | none => (s, .exit 127)

/-- How many commands a program may go through. -/
def patience : Nat := 1000000

/-- A state with the standard descriptors: nothing to read, and buffers to write to. Its last
component is the stream of errors. -/
def fresh (env : Environment) (cwd : Location) (t : FileTree) : State × Nat :=
  let vars := env.map fun (name, value) => (ofText name, ofText value)
  let s : State := { tree := t, cwd := cwd, vars := vars }
  let s := s.assign "PWD" s.cwdText
  let (s, input) := s.opened (.source "")
  let (s, output) := s.opened (.buffer "")
  let (s, errors) := s.opened (.buffer "")
  (((s.connect 0 input).connect 1 output).connect 2 errors, errors)

/-- The programs of a system with an environment. -/
def programs (env : Environment) : Programs := fun program args cwd t =>
  if (program :: args).any fun a => a.toList.any (· == '\x00') then .error .nulInArgument
  else match findProgram program cwd t with
    | .error e => .error (.file e)
    | .ok name =>
      let (s, errors) := fresh env cwd t
      let (s, flow) := runFound patience s name (args.map ofText)
      let status := match flow with
        | .killed k => .signal k
        | .exit k => .code k
        | _ => .code s.status
      let partway (nanos : Nat) := ((s.trail.reverse.find? (nanos < ·.1)).map (·.2)).getD s.tree
      .ok { tree := s.tree, errors := toBytes (s.written errors), status := status
            elapsed := s.waited, partway := partway }

end OnDemand.Rehearsal.Shell
