import OnDemand.Error
import OnDemand.FileTree

/-!
# Sources in a directory

A repository of source units in a directory: the path of a unit is made of the segments of its
name, after a leading text that all names of the repository share.
-/

namespace OnDemand

/-- A directory of sources. -/
structure SourceDirectory where
  root : Path
  extension : String
  /-- What is cut off the front of names that begin with it. -/
  leading : Option String
deriving DecidableEq

namespace SourceDirectory

/-- A text without its beginning, where it has that beginning. -/
def cutLeading (text : String) : Option String → String
  | none => text
  | some start =>
    if start.toList.isPrefixOf text.toList then
      String.ofList (text.toList.drop start.length)
    else text

def pathFor (d : SourceDirectory) (n : Name) : Except BadExtension Path :=
  let path := d.root.joinAll ((Name.segmentsOf (cutLeading n.text d.leading)).filter (· ≠ ""))
  if d.extension = "" then .ok path else path.setExtension d.extension

/-- Why a source could not be fetched. -/
inductive Failure where
  | fetch (e : FetchError)
  | extension (e : BadExtension)
deriving DecidableEq

/-- Fetches the source of a name; a file that is missing is none. -/
def fetch (d : SourceDirectory) (t : FileTree) (cwd : Location) (n : Name) :
    Except Failure (Option SourceUnit) :=
  match d.pathFor n with
  | .error e => .error (.extension e)
  | .ok path =>
    match t.readText cwd path with
    | .ok text => .ok (some ⟨n, text, .remote⟩)
    | .error .notFound => .ok none
    | .error .notText =>
      .error (.fetch (.invalidSource n (path.text ++ " is not valid UTF-8")))
    | .error e =>
      .error (.fetch (.transport ("failed to read " ++ path.text ++ ": " ++ e.message)))

end SourceDirectory

end OnDemand
