import OnDemand.Bytes
import OnDemand.Digest
import OnDemand.Name
import OnDemand.TextSet

/-!
# Artifacts and source units

What goes into a compiler and what comes out of it. A source unit is a named text; an artifact is
a named payload with a set of capabilities, one of which marks a processor that later compiler
runs are offered.
-/

namespace OnDemand

/-- What an artifact can do besides being linked. -/
inductive Capability where
  | extensionProcessor
  | custom (marker : String)
deriving DecidableEq

namespace Capability

def text : Capability → String
  | extensionProcessor => "extension-processor"
  | custom marker => marker

end Capability

/-- A set of capabilities. Listed, the processor capability comes first. -/
structure Capabilities where
  isProcessor : Bool
  markers : TextSet
deriving DecidableEq

namespace Capabilities

def empty : Capabilities := ⟨false, .empty⟩

instance : Inhabited Capabilities := ⟨empty⟩

def insert (s : Capabilities) : Capability → Capabilities
  | .extensionProcessor => { s with isProcessor := true }
  | .custom marker => { s with markers := s.markers.insert marker }

def ofList (cs : List Capability) : Capabilities :=
  cs.foldl insert empty

def toList (s : Capabilities) : List Capability :=
  (if s.isProcessor then [.extensionProcessor] else []) ++ s.markers.items.map .custom

end Capabilities

/-- A compiled artifact. -/
structure Artifact where
  name : Name
  payload : ByteArray
  capabilities : Capabilities
deriving DecidableEq

namespace Artifact

def plain (name : Name) (payload : ByteArray) : Artifact :=
  ⟨name, payload, .empty⟩

def isProcessor (a : Artifact) : Bool :=
  a.capabilities.isProcessor

def withCapability (a : Artifact) (c : Capability) : Artifact :=
  { a with capabilities := a.capabilities.insert c }

def digest (a : Artifact) : Digest :=
  .of a.payload

end Artifact

/-- Where a source unit came from. -/
inductive Origin where
  | localFile
  | remote
deriving DecidableEq, Inhabited

namespace Origin

def text : Origin → String
  | localFile => "local"
  | remote => "remote"

end Origin

/-- A named source text. -/
structure SourceUnit where
  name : Name
  text : String
  origin : Origin
deriving DecidableEq

end OnDemand
