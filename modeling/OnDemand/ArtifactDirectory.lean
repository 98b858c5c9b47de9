import OnDemand.Artifact
import OnDemand.FileTree

/-!
# Artifacts in a directory

Each artifact is a file whose path is made of the segments of its name and an extension. A path
does not tell which separators a name has, so the names are listed beside the files, and so are the
names of processors. Loading takes a name from those known to the caller, else from the list, else
from the path.
-/

namespace OnDemand

/-- A directory of artifacts. -/
structure ArtifactDirectory where
  root : Path
  extension : String
  /-- What stands between segments in names made from paths. -/
  separator : Char
  /-- Names that go before the listed ones. -/
  known : List Name

/-- Why artifacts could not be loaded or saved. -/
inductive DirectoryError where
  | file (action : String) (path : Path) (e : FileError)
  /-- A directory below the root could not be opened. -/
  | walk (root path : Path) (e : FileError)
  | name (path : Path) (e : NameError)
  | extension (e : BadExtension)
deriving DecidableEq

namespace DirectoryError

def message : DirectoryError → String
  | file action path e => "failed to " ++ action ++ " " ++ path.text ++ ": " ++ e.message
  | walk root path e =>
    "failed to walk " ++ root.text ++ ": " ++ path.text ++ ": IO error for operation on " ++
      path.text ++ ": " ++ e.message
  | name path e =>
    "artifact path " ++ path.text ++ " is not a qualified name: " ++ e.message
  | extension e => e.message

end DirectoryError

namespace FileTree

/-- Writes a file, with the directories on the way to it. The making of directories is called by
its own name in errors. -/
def writeThrough (t : FileTree) (cwd : Location) (making : String) (p : Path)
    (bytes : ByteArray) : FileTree × Except DirectoryError Unit :=
  let write (t : FileTree) : FileTree × Except DirectoryError Unit :=
    match t.write cwd p bytes with
    | .ok t => (t, .ok ())
    | .error e => (t, .error (.file "write" p e))
  match p.parent? with
  | none => write t
  | some parent =>
    match t.makeDirs cwd parent with
    | (t, .ok ()) => write t
    | (t, .error e) => (t, .error (.file making parent e))

end FileTree

namespace ArtifactDirectory

/-- What the making of directories is called. -/
def making : String := "create directory"

/-- The list of the names saved. -/
def namesFile : String := "NAMES"

/-- The list of the names of processors. -/
def processorsFile : String := "PROCESSORS"

def pathFor (d : ArtifactDirectory) (n : Name) : Except BadExtension Path :=
  (d.root.joinAll n.segments).setExtension d.extension

/-! ## Lists of names -/

/-- The lines of a list that say something: neither blank nor a comment. -/
def listed (text : String) : List String :=
  ((linesOf text).map trimmed).filter fun l => l ≠ "" && l.toList.head? != some '#'

/-- A list with the names it lacks at its end. -/
def extended (lines : List String) (names : List Name) : List String :=
  names.foldl (fun ls n => if n.text ∈ ls then ls else ls ++ [n.text]) lines

def listPath (d : ArtifactDirectory) (file : String) : Path :=
  d.root.join ⟨file⟩

/-- Reads a list; one that is missing is empty. -/
def readList (d : ArtifactDirectory) (t : FileTree) (cwd : Location) (file : String) :
    Except DirectoryError (List String) :=
  match t.readText cwd (d.listPath file) with
  | .ok text => .ok (listed text)
  | .error .notFound => .ok []
  | .error e => .error (.file "read list" (d.listPath file) e)

/-- Adds names to a list. A list that has them all is left as it is, another is written anew. -/
def appendList (d : ArtifactDirectory) (t : FileTree) (cwd : Location) (file : String)
    (names : List Name) : FileTree × Except DirectoryError Unit :=
  match d.readList t cwd file with
  | .error e => (t, .error e)
  | .ok lines =>
    let grown := extended lines names
    if grown.length = lines.length then (t, .ok ())
    else t.writeThrough cwd making (d.listPath file) ("\n".intercalate grown ++ "\n").toUTF8

/-! ## Saving -/

def saveFiles (d : ArtifactDirectory) (cwd : Location) :
    FileTree → List Artifact → FileTree × Except DirectoryError Unit
  | t, [] => (t, .ok ())
  | t, a :: as =>
    match d.pathFor a.name with
    | .error e => (t, .error (.extension e))
    | .ok path =>
      match t.writeThrough cwd making path a.payload with
      | (t, .error e) => (t, .error e)
      | (t, .ok ()) => saveFiles d cwd t as

/-- Saves artifacts: their files, then their names, then the names of the processors. -/
def save (d : ArtifactDirectory) (t : FileTree) (cwd : Location) (as : List Artifact) :
    FileTree × Except DirectoryError Unit :=
  match t.makeDirs cwd d.root with
  | (t, .error e) => (t, .error (.file making d.root e))
  | (t, .ok ()) =>
    match d.saveFiles cwd t as with
    | (t, .error e) => (t, .error e)
    | (t, .ok ()) =>
      match d.appendList t cwd namesFile (as.map (·.name)) with
      | (t, .error e) => (t, .error e)
      | (t, .ok ()) =>
        d.appendList t cwd processorsFile ((as.filter Artifact.isProcessor).map (·.name))

/-! ## Loading -/

/-- The names by their segments; of two with the same segments the later one counts. -/
def nameIndex (d : ArtifactDirectory) (lines : List String) : List (List String × Name) :=
  let names := lines.filterMap Name.parse? ++ d.known
  (names.map fun n => (n.segments, n)).reverse

/-- The parts of a file's path below the root, without its extension. -/
def bareParts (parts : List String) : List String :=
  match parts.getLast? with
  | none => []
  | some last => parts.dropLast ++ [(Path.dropExtension ⟨last⟩).text]

/-- A file of the tree that holds an artifact. -/
def isArtifactFile (d : ArtifactDirectory) (parts : List String) : Bool :=
  match parts.getLast? with
  | none => false
  | some last => (Path.extension? ⟨last⟩) == some d.extension

/-- The name of the artifact in a file. -/
def nameFor (d : ArtifactDirectory) (index : List (List String × Name)) (parts : List String) :
    Except DirectoryError Name :=
  let bare := bareParts parts
  match index.lookup bare with
  | some n => .ok n
  | none =>
    (Name.parse ((String.ofList [d.separator]).intercalate bare)).mapError
      (.name (d.root.joinAll parts))

/-- Why the operating system does not go the way from the directory to what is below it. -/
def barred? (d : ArtifactDirectory) (deny : Denials) (parts : List String) : Option FileError :=
  if (d.root.joinAll parts).tooLong then some .nameTooLong
  else if (List.range parts.length).any fun i => parts.take i ∈ deny.passing then
    some .permissionDenied
  else none

/-- Why a directory cannot be opened. -/
def unopened? (d : ArtifactDirectory) (deny : Denials) (parts : List String) : Option FileError :=
  (d.barred? deny parts).or (if parts ∈ deny.opening then some .permissionDenied else none)

/-- Goes through what is below the directory. A directory must be opened; a file to which the way
cannot be gone is taken for none. -/
def loadEntries (d : ArtifactDirectory) (deny : Denials) (index : List (List String × Name))
    (processors : List (List String)) :
    List (List String × Entry) → Except DirectoryError (List Artifact)
  | [] => .ok []
  | (parts, .dir) :: entries =>
    match d.unopened? deny parts with
    | some e => .error (.walk d.root (d.root.joinAll parts) e)
    | none => loadEntries d deny index processors entries
  | (parts, .file bytes) :: entries =>
    if d.isArtifactFile parts && (d.barred? deny parts).isNone then
      match d.nameFor index parts with
      | .error e => .error e
      | .ok name =>
        if parts ∈ deny.opening then
          .error (.file "read artifact" (d.root.joinAll parts) .permissionDenied)
        else
          let a := Artifact.plain name bytes
          let a := if bareParts parts ∈ processors then a.withCapability .extensionProcessor else a
          (loadEntries d deny index processors entries).map (a :: ·)
    else loadEntries d deny index processors entries

/-- Reads a list of a directory from which not all may be read. -/
def readListIn (d : ArtifactDirectory) (t : FileTree) (cwd : Location) (deny : Denials)
    (l : Location) (file : String) : Except DirectoryError (List String) :=
  if [] ∈ deny.passing ∨ [file] ∈ deny.opening ∧ (t.entry? (l ++ [file])).isSome then
    .error (.file "read list" (d.listPath file) .permissionDenied)
  else d.readList t cwd file

/-- Loads all artifacts, in ascending order of names. A directory that is missing has none. -/
def load (d : ArtifactDirectory) (t : FileTree) (cwd : Location) (deny : Denials := .none) :
    Except DirectoryError (List Artifact) :=
  match t.look cwd d.root with
  | .error _ => .ok []
  | .ok (l, _) =>
    match d.readListIn t cwd deny l processorsFile with
    | .error e => .error e
    | .ok processorLines =>
      match d.readListIn t cwd deny l namesFile with
      | .error e => .error e
      | .ok nameLines =>
        let processors := (processorLines.filterMap Name.parse?).map Name.segments
        let entries := ([], .dir) :: t.entriesBelow l
        (d.loadEntries deny (d.nameIndex nameLines) processors entries).map fun as =>
          as.mergeSort fun a b => !decide (b.name < a.name)

end ArtifactDirectory

end OnDemand
