import OnDemand.Rehearsal.Shell.State

/-!
# Utilities on files

Making, copying, moving, removing and listing files.
-/

namespace OnDemand.Rehearsal.Shell

namespace State

/-- A message of a utility. -/
def warn (s : State) (utility message : String) : State :=
  s.err (utility ++ ": " ++ message ++ "\n")

/-- A wrong use of a utility. -/
def misuse (s : State) (utility message : String) : State × Nat :=
  ((s.warn utility message).err ("Try '" ++ utility ++ " --help' for more information.\n"), 1)

end State

/-- Whether an argument gives options by letters. -/
def isOptions (arg : String) : Bool :=
  match arg.toList with
  | '-' :: _ :: _ => true
  | _ => false

/-- The letters of the options and the other arguments. -/
def splitOptions (args : List String) : List Char × List String :=
  let options := args.takeWhile fun a => isOptions a && a ≠ "--"
  let rest := args.drop options.length
  (options.flatMap fun o => o.toList.drop 1,
    if rest.head? = some "--" then rest.drop 1 else rest)

/-- Does something about each argument; the status is one where it fails for any. -/
def forEach (s : State) (args : List String) (f : State → String → State × Bool) : State × Nat :=
  args.foldl (fun (s, status) a =>
    let (s, good) := f s a
    (s, if good then status else 1)) (s, 0)

def quoted (arg : String) : String :=
  "'" ++ arg ++ "'"

/-! ## Directories -/

/-- The first part of a path that is a file. -/
def fileOnTheWay (s : State) (arg : String) : String :=
  let pieces := (List.range arg.length).filterMap fun k =>
    let front := String.ofList (arg.toList.take (k + 1))
    if s.tree.isFile s.cwd (State.path front) then some front else none
  pieces.headD arg

/-- A path without points and superfluous slashes. -/
def tidyPath (p : Path) : Path :=
  let start : Path := ⟨if p.isAbsolute then "/" else ""⟩
  start.joinAll ((p.components.filter (· ≠ .root)).map Component.text)

def mkdir (s : State) (args : List String) : State × Nat :=
  let (options, dirs) := splitOptions args
  if dirs.isEmpty then s.misuse "mkdir" "missing operand"
  else forEach s dirs fun s d =>
    let p := State.path d
    let refuse (at_ : String) (e : FileError) : State × Bool :=
      (s.warn "mkdir" ("cannot create directory " ++ quoted at_ ++ ": " ++ e.reason), false)
    if 'p' ∈ options then
      match s.tree.makeDirs s.cwd (tidyPath p) with
      | (t, .ok ()) => ({ s with tree := t }, true)
      | (_, .error .notDirectory) => refuse (fileOnTheWay s d) .notDirectory
      | (_, .error e) =>
        if FileTree.endsInPoint p then refuse (fileOnTheWay s d) .notDirectory else refuse d e
    else match s.tree.makeDir s.cwd p with
      | .ok t => ({ s with tree := t }, true)
      | .error e => refuse d e

/-- The location of what an argument names. -/
def locationOf (s : State) (arg : String) : Except FileError (Location × Entry) :=
  s.tree.look s.cwd (State.path arg)

/-! ## Files -/

def touch (s : State) (args : List String) : State × Nat :=
  forEach s (splitOptions args).2 fun s f =>
    if s.tree.pathExists s.cwd (State.path f) then (s, true)
    else match s.tree.write s.cwd (State.path f) .empty with
      | .ok t => ({ s with tree := t }, true)
      | .error e => (s.warn "touch" ("cannot touch " ++ quoted f ++ ": " ++ e.reason), false)

def rm (s : State) (args : List String) : State × Nat :=
  let (options, names) := splitOptions args
  forEach s names fun s f =>
    let refuse (why : String) : State × Bool :=
      (s.warn "rm" ("cannot remove " ++ quoted f ++ ": " ++ why), false)
    match locationOf s f with
    | .ok (l, .dir) =>
      if 'r' ∈ options || 'R' ∈ options then ({ s with tree := s.tree.remove l }, true)
      else refuse FileError.isDirectory.reason
    | .ok (l, .file _) => ({ s with tree := s.tree.remove l }, true)
    | .error e => if 'f' ∈ options && e = .notFound then (s, true) else refuse e.reason

/-- Puts all that is at one location at another. -/
def copyTree (t : FileTree) (source target : Location) : FileTree :=
  (t.entries.reverse.filter fun e => source.isPrefixOf e.1).foldl
    (fun t e => t.set (target ++ e.1.drop source.length) e.2) t

/-- Where a file goes that is copied or moved to a place: into it, if it is a directory. -/
def destination (s : State) (source : Location) (target : String) : Except FileError Location :=
  match s.tree.locate s.cwd (State.path target) with
  | .error e => .error e
  | .ok l =>
    match s.tree.entry? l with
    | some .dir => .ok (l ++ [source.getLastD ""])
    | some (.file _) => .ok l
    | none =>
      match s.tree.entry? l.dropLast with
      | some .dir => .ok l
      | some (.file _) => .error .notDirectory
      | none => .error .notFound

def copyOrMove (utility : String) (move : Bool) (s : State) (args : List String) : State × Nat :=
  let (options, names) := splitOptions args
  let target := names.getLastD ""
  if names.length < 2 then
    s.misuse utility (if names.isEmpty then "missing file operand"
      else "missing destination file operand after " ++ quoted target)
  else forEach s names.dropLast fun s f =>
    match locationOf s f with
    | .error e => (s.warn utility ("cannot stat " ++ quoted f ++ ": " ++ e.reason), false)
    | .ok (l, entry) =>
      let deep := move || 'r' ∈ options || 'R' ∈ options || 'a' ∈ options
      if entry = .dir && !deep then
        (s.warn utility ("-r not specified; omitting directory " ++ quoted f), false)
      else match destination s l target with
        | .error e =>
          (s.warn utility ("cannot create regular file " ++ quoted target ++ ": " ++ e.reason),
            false)
        | .ok goal =>
          let t := copyTree s.tree l goal
          ({ s with tree := if move && goal ≠ l then t.remove l else t }, true)

/-! ## Listing -/

def ascending (names : List String) : List String :=
  names.mergeSort fun a b => !decide (b < a)

def ls (s : State) (args : List String) : State × Nat :=
  let (options, names) := splitOptions args
  let all := 'a' ∈ options || 'A' ∈ options
  let shown (names : List String) : String :=
    String.join (((ascending names).filter fun n => all || !n.startsWith ".").map fun n =>
      ofText n ++ "\n")
  let names := if names.isEmpty then ["."] else names
  forEach s names fun s f =>
    match locationOf s f with
    | .ok (l, .dir) =>
      (s.out ((if 1 < names.length then f ++ ":\n" else "") ++ shown (s.tree.names l)), true)
    | .ok _ => (s.out (f ++ "\n"), true)
    | .error e => (s.warn "ls" ("cannot access " ++ quoted f ++ ": " ++ e.reason), false)

/-- What a search lists. -/
structure FindTest where
  kind : Option Bool := none
  name : Option (List Glob) := none

def findTest : List String → FindTest
  | "-type" :: "f" :: rest => { findTest rest with kind := some true }
  | "-type" :: "d" :: rest => { findTest rest with kind := some false }
  | "-name" :: p :: rest =>
    { findTest rest with name := some (Glob.read (p.toList.map fun c => (c, false))) }
  | _ :: rest => findTest rest
  | [] => {}

def find (s : State) (args : List String) : State × Nat :=
  let starts := args.takeWhile fun a => !a.startsWith "-"
  let test := findTest (args.drop starts.length)
  let starts := if starts.isEmpty then ["."] else starts
  let wanted (text : String) (entry : Entry) : Bool :=
    let isFile := match entry with
      | .file _ => true
      | .dir => false
    let base := (text.toList.reverse.takeWhile (· ≠ '/')).reverse
    test.kind.all (· == isFile) && test.name.all fun gs => Glob.matches? gs base
  forEach s starts fun s start =>
    match locationOf s start with
    | .error e => (s.warn "find" (quoted start ++ ": " ++ e.reason), false)
    | .ok (l, entry) =>
      let front := if start.endsWith "/" then start else start ++ "/"
      let below := (s.tree.entriesBelow l).map fun (parts, e) =>
        (front ++ ofText ("/".intercalate parts), e)
      let lines := ((start, entry) :: below).filter fun (text, e) => wanted text e
      (s.out (String.join (lines.map fun (text, _) => text ++ "\n")), true)

/-! ## Names -/

/-- A text without the slashes at its end, unless it has nothing else. -/
def dropSlashes (arg : String) : List Char :=
  let cs := (arg.toList.reverse.dropWhile (· == '/')).reverse
  if cs.isEmpty && arg ≠ "" then ['/'] else cs

/-- The letter of an option that a utility without options is given. -/
def strayOption? (args : List String) : Option Char :=
  (splitOptions args).1.head?

def invalidOption (s : State) (utility : String) (letter : Char) : State × Nat :=
  s.misuse utility ("invalid option -- '" ++ String.ofList [letter] ++ "'")

def dirname (s : State) (args : List String) : State × Nat :=
  match strayOption? args, (splitOptions args).2 with
  | some c, _ => invalidOption s "dirname" c
  | none, [] => s.misuse "dirname" "missing operand"
  | none, args =>
    let one (arg : String) : String :=
      let cs := dropSlashes arg
      if cs = ['/'] then "/"
      else
        let front := cs.reverse.dropWhile (· ≠ '/')
        if front.isEmpty then "."
        else String.ofList (dropSlashes (String.ofList front.reverse))
    (s.out (String.join (args.map fun a => one a ++ "\n")), 0)

def basename (s : State) (args : List String) : State × Nat :=
  match strayOption? args, (splitOptions args).2 with
  | some c, _ => invalidOption s "basename" c
  | none, [] => s.misuse "basename" "missing operand"
  | none, arg :: more =>
    let cs := dropSlashes arg
    let last := if cs = ['/'] then cs else (cs.reverse.takeWhile (· ≠ '/')).reverse
    let ending := (more.headD "").toList
    let short :=
      if ending.isSuffixOf last && ending.length < last.length then
        last.take (last.length - ending.length)
      else last
    (s.out (String.ofList short ++ "\n"), 0)

end OnDemand.Rehearsal.Shell
