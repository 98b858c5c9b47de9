import OnDemand.Bytes
import OnDemand.Path

/-!
# A tree of files

Files and directories by location, where a location is the list of names on the way from the root.
Reading, writing and making directories go by paths, from a working directory, and fail for the
causes for which an operating system fails.
-/

namespace OnDemand

/-- Why an operation on files failed. -/
inductive FileError where
  | notFound
  | permissionDenied
  | alreadyExists
  | notDirectory
  | isDirectory
  | nameTooLong
  /-- The text of a file is not UTF-8. -/
  | notText
  /-- A path holds the character NUL. -/
  | nulInPath
deriving DecidableEq

namespace FileError

/-- The cause in words. -/
def reason : FileError → String
  | notFound => "No such file or directory"
  | permissionDenied => "Permission denied"
  | alreadyExists => "File exists"
  | notDirectory => "Not a directory"
  | isDirectory => "Is a directory"
  | nameTooLong => "File name too long"
  | notText => "stream did not contain valid UTF-8"
  | nulInPath => "file name contained an unexpected NUL byte"

/-- The number of the cause, for one that the operating system tells. -/
def code? : FileError → Option Nat
  | notFound => some 2
  | permissionDenied => some 13
  | alreadyExists => some 17
  | notDirectory => some 20
  | isDirectory => some 21
  | nameTooLong => some 36
  | notText => none
  | nulInPath => none

def message (e : FileError) : String :=
  match e.code? with
  | some n => e.reason ++ " (os error " ++ toString n ++ ")"
  | none => e.reason

end FileError

/-- What is at a location. -/
inductive Entry where
  | file (bytes : ByteArray)
  | dir
deriving DecidableEq

/-- The names on the way from the root. -/
abbrev Location := List String

/-- What the operating system refuses below a directory: to open some files and directories for
reading, and to go through some directories. -/
structure Denials where
  opening : List (List String)
  passing : List (List String)
deriving DecidableEq

def Denials.none : Denials := ⟨[], []⟩

/-- Files and directories by location, the newest first. The root is a directory without an
entry. -/
structure FileTree where
  entries : List (Location × Entry)
deriving DecidableEq

namespace FileTree

def empty : FileTree := ⟨[]⟩

instance : Inhabited FileTree := ⟨empty⟩

/-! ## Locations -/

def entry? (t : FileTree) (l : Location) : Option Entry :=
  if l = [] then some .dir else t.entries.lookup l

/-- Puts an entry at a location, in place of one that is there. -/
def set (t : FileTree) (l : Location) (e : Entry) : FileTree :=
  if t.entries.any (·.1 = l) then ⟨t.entries.map fun f => if f.1 = l then (l, e) else f⟩
  else ⟨(l, e) :: t.entries⟩

/-- Takes away a location and all below it. -/
def remove (t : FileTree) (l : Location) : FileTree :=
  ⟨t.entries.filter fun e => !l.isPrefixOf e.1⟩

/-- How many entries are newer than the one at a location. -/
def age (t : FileTree) (l : Location) : Nat :=
  t.entries.findIdx (·.1 = l)

/-- The ages on the way from a location through the names below it. -/
def ages (t : FileTree) (l : Location) (parts : List String) : List Nat :=
  (List.range parts.length).map fun i => t.age (l ++ parts.take (i + 1))

/-- What is below a location, by the names that lead from it there. A directory comes before what is
in it, and that is gone through from the newest entry to the oldest. -/
def entriesBelow (t : FileTree) (l : Location) : List (List String × Entry) :=
  let below := t.entries.filterMap fun e =>
    if l.isPrefixOf e.1 && l ≠ e.1 then some (e.1.drop l.length, e.2) else none
  below.mergeSort fun a b => (compare (t.ages l a.1) (t.ages l b.1)).isLE

/-- The names directly in a location, the newest first. -/
def names (t : FileTree) (l : Location) : List String :=
  t.entries.filterMap fun e =>
    if e.1.length = l.length + 1 && l.isPrefixOf e.1 then e.1.getLast? else none

/-! ## Paths -/

/-- Whether a path can only mean a directory. -/
def meansDirectory (p : Path) : Bool :=
  match p.text.toList.reverse with
  | '/' :: _ => true
  | '.' :: '/' :: _ => true
  | ['.'] => true
  | '.' :: '.' :: '/' :: _ => true
  | ['.', '.'] => true
  | _ => false

/-- Whether the last part of a path is a point. Such a path is never the place of something new. -/
def endsInPoint (p : Path) : Bool :=
  match p.text.toList.reverse.dropWhile Path.isSlash with
  | ['.'] => true
  | '.' :: '/' :: _ => true
  | _ => false

/-- One step on the way. -/
def enter (t : FileTree) (l : Location) (c : Component) : Except FileError Location :=
  match c with
  | .root => .ok []
  | .here => .ok l
  | .up =>
    match t.entry? l with
    | none => .error .notFound
    | some (.file _) => .error .notDirectory
    | some .dir => .ok l.dropLast
  | .name s =>
    match t.entry? l with
    | none => .error .notFound
    | some (.file _) => .error .notDirectory
    | some .dir => if 255 < s.utf8ByteSize then .error .nameTooLong else .ok (l ++ [s])

/-- The location that a path leads to from a working directory. All on the way to it exists, the
location itself need not. -/
def locate (t : FileTree) (cwd : Location) (p : Path) : Except FileError Location :=
  if p.text.toList.any (· == '\x00') then .error .nulInPath
  else if p.text = "" then .error .notFound
  else if p.tooLong then .error .nameTooLong
  else p.components.foldlM t.enter cwd

/-- What a path leads to. -/
def look (t : FileTree) (cwd : Location) (p : Path) : Except FileError (Location × Entry) :=
  match t.locate cwd p with
  | .error e => .error e
  | .ok l =>
    match t.entry? l with
    | none => .error .notFound
    | some .dir => .ok (l, .dir)
    | some (.file bytes) =>
      if meansDirectory p then .error .notDirectory else .ok (l, .file bytes)

def pathExists (t : FileTree) (cwd : Location) (p : Path) : Bool :=
  (t.look cwd p).toOption.isSome

def isFile (t : FileTree) (cwd : Location) (p : Path) : Bool :=
  match t.look cwd p with
  | .ok (_, .file _) => true
  | _ => false

def isDir (t : FileTree) (cwd : Location) (p : Path) : Bool :=
  match t.look cwd p with
  | .ok (_, .dir) => true
  | _ => false

def read (t : FileTree) (cwd : Location) (p : Path) : Except FileError ByteArray :=
  match t.look cwd p with
  | .error e => .error e
  | .ok (_, .dir) => .error .isDirectory
  | .ok (_, .file bytes) => .ok bytes

def readText (t : FileTree) (cwd : Location) (p : Path) : Except FileError String :=
  match t.read cwd p with
  | .error e => .error e
  | .ok bytes =>
    match String.fromUTF8? bytes with
    | some s => .ok s
    | none => .error .notText

/-- Writes a file whose directory exists. -/
def write (t : FileTree) (cwd : Location) (p : Path) (bytes : ByteArray) :
    Except FileError FileTree :=
  match t.locate cwd p with
  | .error e => .error e
  | .ok l =>
    match t.entry? l with
    | some .dir => .error .isDirectory
    | some (.file _) => if meansDirectory p then .error .notDirectory else .ok (t.set l (.file bytes))
    | none =>
      if endsInPoint p then .error .notFound
      else if meansDirectory p then .error .isDirectory
      else match t.entry? l.dropLast with
        | some .dir => .ok (t.set l (.file bytes))
        | some (.file _) => .error .notDirectory
        | none => .error .notFound

/-- Makes a directory in one that exists. -/
def makeDir (t : FileTree) (cwd : Location) (p : Path) : Except FileError FileTree :=
  match t.locate cwd p with
  | .error e => .error e
  | .ok l =>
    match t.entry? l with
    | some .dir => .error .alreadyExists
    | some (.file _) => .error (if endsInPoint p then .notDirectory else .alreadyExists)
    | none =>
      if endsInPoint p then .error .notFound
      else match t.entry? l.dropLast with
      | some .dir => .ok (t.set l .dir)
      | some (.file _) => .error .notDirectory
      | none => .error .notFound

/-- A directory that could not be made is no failure if it is there already. -/
def unlessDir (t : FileTree) (cwd : Location) (p : Path) (e : FileError) : Except FileError Unit :=
  if t.isDir cwd p then .ok () else .error e

/-- Makes a directory and those on the way to it that are missing. What could be made stays, also
where the rest could not. The number bounds the length of the way. -/
def makeDirsWithin (cwd : Location) : Nat → FileTree → Path → FileTree × Except FileError Unit
  | 0, t, p =>
    match t.makeDir cwd p with
    | .ok t => (t, .ok ())
    | .error e => (t, t.unlessDir cwd p e)
  | n + 1, t, p =>
    if p.text = "" then (t, .ok ())
    else match t.makeDir cwd p, p.parent? with
      | .ok t, _ => (t, .ok ())
      | .error .notFound, some parent =>
        match makeDirsWithin cwd n t parent with
        | (t, .error e) => (t, .error e)
        | (t, .ok ()) =>
          match t.makeDir cwd p with
          | .ok t => (t, .ok ())
          | .error e => (t, t.unlessDir cwd p e)
      | .error e, _ => (t, t.unlessDir cwd p e)

def makeDirs (t : FileTree) (cwd : Location) (p : Path) : FileTree × Except FileError Unit :=
  makeDirsWithin cwd p.components.length t p

/-! ## Setting up -/

/-- Makes a file or directory at a location, with the directories on the way to it. -/
def place (t : FileTree) (l : Location) (e : Entry) : FileTree :=
  let parents := (List.range l.length).map l.take
  let t := parents.foldl (fun t d => if (t.entry? d).isSome then t else t.set d .dir) t
  t.set l e

end FileTree

end OnDemand
