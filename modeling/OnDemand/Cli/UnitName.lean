import OnDemand.Cli.Error

/-!
# Names of source files

The name of a unit in a file: the way from a root to the file, without the file's extension. Files
that are not below the root have none.
-/

namespace OnDemand.Cli

/-- A way whose last name has lost its extension. -/
def withoutExtension (way : List Component) : List Component :=
  match way.getLast? with
  | some (.name s) => way.dropLast ++ (Path.dropExtension ⟨s⟩).components
  | _ => way

/-- The way from a root to a file, without the file's extension. A file that is not given from the root
`.` on is below it as it was written. -/
def wayBelow? (file root : Path) : Option (List Component) :=
  match file.after? root with
  | some way => some (withoutExtension way)
  | none => if root.components = [.here] then some file.dropExtension.components else none

/-- The names on a way that only leads downwards. -/
def namesOn? : List Component → Option (List String)
  | [] => some []
  | .name s :: way => (namesOn? way).map (s :: ·)
  | .here :: way => namesOn? way
  | _ :: _ => none

/-- Reads a name as it was given. -/
def readName (raw : String) : Except TaskError Name :=
  (Name.parse raw).mapError (.name raw)

/-- The name of the unit in a file. -/
def unitName (file root : Path) (separator : Char) : Except TaskError Name :=
  match wayBelow? file root with
  | none => .error (.notBelow file root)
  | some way =>
    match namesOn? way with
    | none => .error (.nameless file)
    | some names => readName ((String.ofList [separator]).intercalate names)

end OnDemand.Cli
