import OnDemand.Text.Escaped
import OnDemand.Text.Lines

/-!
# Paths

A path is kept as it was written and read as components: repeated slashes and `.` between slashes
do not count, a `.` at the start of a relative path and every `..` do. A path can be joined with
another, lose a leading path, and have the extension of its last component replaced.
-/

namespace OnDemand

/-- A path as written. -/
structure Path where
  text : String
deriving DecidableEq

/-- A part of a path. -/
inductive Component where
  | root
  | here
  | up
  | name (s : String)
deriving DecidableEq

namespace Component

def text : Component → String
  | root => "/"
  | here => "."
  | up => ".."
  | name s => s

def ofPiece (cs : List Char) : Option Component :=
  if cs = [] then none
  else if cs = ['.'] then none
  else if cs = ['.', '.'] then some .up
  else some (.name (String.ofList cs))

end Component

/-- An extension that would add a component. -/
structure BadExtension where
  extension : String
deriving DecidableEq

namespace BadExtension

def message (e : BadExtension) : String :=
  "extension cannot contain path separators: " ++ Text.quotePath e.extension

end BadExtension

namespace Path

def isSlash (c : Char) : Bool :=
  c == '/'

def isAbsolute (p : Path) : Bool :=
  p.text.toList.head? == some '/'

/-- Longer than the operating system takes a path. -/
def tooLong (p : Path) : Bool :=
  4096 ≤ p.text.utf8ByteSize

def componentsOf (cs : List Char) : List Component :=
  let pieces := Text.pieces isSlash cs
  let start : List Component :=
    if cs.head? = some '/' then [.root] else if pieces.head? = some ['.'] then [.here] else []
  start ++ pieces.filterMap Component.ofPiece

def components (p : Path) : List Component :=
  componentsOf p.text.toList

/-- The other path below this one; an absolute path stays as it is. -/
def join (p q : Path) : Path :=
  if q.isAbsolute then q
  else if p.text = "" || p.text.toList.getLast? == some '/' then ⟨p.text ++ q.text⟩
  else ⟨p.text ++ "/" ++ q.text⟩

/-- The path below this one through further components. -/
def joinAll (p : Path) (parts : List String) : Path :=
  parts.foldl (fun p s => p.join ⟨s⟩) p

/-! ## The last component -/

/-- A reversed path without slashes and `.` components at its end. -/
def dropTail : List Char → List Char
  | '/' :: cs => dropTail cs
  | '.' :: '/' :: cs => dropTail cs
  | cs => cs

/-- What stands before the last component, and that component if it is a name. -/
def splitLast (cs : List Char) : Option (List Char × List Char) :=
  let kept := dropTail cs.reverse
  let last := (kept.takeWhile (· ≠ '/')).reverse
  if last = [] || last = ['.'] || last = ['.', '.'] then none
  else some ((kept.dropWhile (· ≠ '/')).reverse, last)

/-- A file name without its extension, and the extension. A dot at the start begins none. -/
def splitName (name : List Char) : List Char × Option (List Char) :=
  let after := (name.reverse.takeWhile (· ≠ '.')).reverse
  let before := (name.reverse.dropWhile (· ≠ '.')).reverse.dropLast
  if after.length = name.length || before = [] then (name, none) else (before, some after)

/-- The last component, if it is a name. -/
def fileName? (p : Path) : Option String :=
  (splitLast p.text.toList).map fun s => String.ofList s.2

def extension? (p : Path) : Option String :=
  (splitLast p.text.toList).bind fun s => (splitName s.2).2.map String.ofList

/-- Gives the last component another extension, or none for the empty one. -/
def replaceExtension (p : Path) (extension : String) : Path :=
  match splitLast p.text.toList with
  | none => p
  | some (before, name) =>
    let stem := (splitName name).1
    ⟨String.ofList (before ++ stem) ++ if extension = "" then "" else "." ++ extension⟩

/-- Gives the last component an extension, which must not hold a slash. -/
def setExtension (p : Path) (extension : String) : Except BadExtension Path :=
  if extension.toList.any isSlash then .error ⟨extension⟩ else .ok (p.replaceExtension extension)

/-- A path without its extension: the extension goes, and then the dot before it with all that
makes the rest end in an extension again. -/
def dropExtension (p : Path) : Path :=
  match p.extension? with
  | none => p.replaceExtension ""
  | some e =>
    Path.replaceExtension ⟨String.ofList (p.text.toList.take (p.text.length - e.length))⟩ ""

/-- The path without its last component. -/
def parent? (p : Path) : Option Path :=
  match p.components.getLast? with
  | none => none
  | some .root => none
  | some _ =>
    let kept := dropTail p.text.toList.reverse
    let before := kept.dropWhile (· ≠ '/')
    let short := dropTail before
    some ⟨if short = [] && before ≠ [] then "/" else String.ofList short.reverse⟩

/-! ## Leading paths -/

/-- The components after a leading path. -/
def after? (p start : Path) : Option (List Component) :=
  if start.components.isPrefixOf p.components then
    some (p.components.drop start.components.length)
  else none

end Path

end OnDemand
