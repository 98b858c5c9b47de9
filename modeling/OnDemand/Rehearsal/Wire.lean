import OnDemand.Artifact
import OnDemand.Json

/-!
# Names, origins and capabilities as JSON

A name is its text. A choice without content is its label, or an object with the label as its one
key and null as the value; a choice with content is an object with the label as its one key.
-/

namespace OnDemand

/-- Why a JSON value stands for nothing. -/
inductive WireError where
  | name (e : NameError)
  | shape
deriving DecidableEq

namespace Json

/-- The label of a choice, and its content where there is one. -/
def choice? : Json → Option (String × Option Json)
  | .string label => some (label, none)
  | .members [(label, content)] => some (label, some content)
  | _ => none

/-- The label of a choice without content. -/
def bareChoice? (j : Json) : Option String :=
  match j.choice? with
  | some (label, none) => some label
  | some (label, some .null) => some label
  | _ => none

end Json

namespace Name

def toJson (n : Name) : Json := .string n.text

def ofJson : Json → Except WireError Name
  | .string s => (parse s).mapError .name
  | _ => .error .shape

end Name

namespace Origin

def toJson (o : Origin) : Json := .string o.text

def ofJson (j : Json) : Except WireError Origin :=
  match j.bareChoice? with
  | some "local" => .ok .localFile
  | some "remote" => .ok .remote
  | _ => .error .shape

end Origin

namespace Capability

def toJson : Capability → Json
  | .extensionProcessor => .string "extension-processor"
  | .custom marker => .object [("custom", .string marker)]

def ofJson (j : Json) : Except WireError Capability :=
  match j.choice? with
  | some ("custom", some (.string marker)) => .ok (.custom marker)
  | _ => match j.bareChoice? with
    | some "extension-processor" => .ok .extensionProcessor
    | _ => .error .shape

end Capability

end OnDemand
