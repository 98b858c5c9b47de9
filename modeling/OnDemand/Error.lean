import OnDemand.Artifact
import OnDemand.Duration

/-!
# What can go wrong with a call

The causes of a failed lookup or compilation, and their wording.
-/

namespace OnDemand

/-- The parts of a call that can take long. -/
inductive Operation where
  | fetch
  | compile
  | wait
deriving DecidableEq

namespace Operation

def text : Operation → String
  | fetch => "fetch"
  | compile => "compile"
  | wait => "wait"

end Operation

/-- Why a call failed. -/
inductive CallError where
  /-- There is no source for a name. -/
  | resolution (name : Name) (message : String)
  /-- The compiler refused the units. -/
  | compile (units : List Name) (message : String) (diagnostics : List String)
  /-- An artifact would replace one with another payload. -/
  | consistency (name : Name) (existing incoming : Digest)
  | timedOut (operation : Operation) (timeout : Duration)
  /-- The work ended without a result. -/
  | abandoned (operation : Operation)
deriving DecidableEq

namespace CallError

def message : CallError → String
  | resolution name message =>
    "failed to resolve source for '" ++ name.text ++ "': " ++ message
  | compile units message _ =>
    "compilation failed for [" ++ ", ".intercalate (units.map Name.text) ++ "]: " ++ message
  | consistency name existing incoming =>
    "artifact '" ++ name.text ++ "' is already stored as " ++ existing.text ++ ", refusing " ++
      incoming.text
  | timedOut operation timeout => operation.text ++ " timed out after " ++ timeout.text
  | abandoned operation => operation.text ++ " was abandoned before producing a result"

def isTimeout : CallError → Bool
  | timedOut _ _ => true
  | _ => false

def isConsistency : CallError → Bool
  | consistency _ _ _ => true
  | _ => false

/-- Whether the same call would fail the same way again: neither a timeout nor lost work. -/
def isLasting : CallError → Bool
  | timedOut _ _ => false
  | abandoned _ => false
  | _ => true

end CallError

/-- Why a repository could not give a source. -/
inductive FetchError where
  | transport (message : String)
  | invalidSource (name : Name) (message : String)
deriving DecidableEq

namespace FetchError

def message : FetchError → String
  | transport message => "transport error: " ++ message
  | invalidSource name message => "invalid source for '" ++ name.text ++ "': " ++ message

end FetchError

/-- What a compiler run that failed leaves behind. -/
structure BuildFailure where
  message : String
  diagnostics : List String
  /-- Artifacts made before it failed. -/
  partials : List Artifact
deriving DecidableEq

/-- What a compiler run that succeeded leaves behind. -/
structure BuildOutput where
  artifacts : List Artifact
  diagnostics : List String
deriving DecidableEq

/-- Arithmetic on time that has no result stops the call. -/
inductive Overflow where
  | durationParts
  | durationSum
  | deadline
deriving DecidableEq

namespace Overflow

def message : Overflow → String
  | durationParts => "overflow in Duration::new"
  | durationSum => "overflow when adding durations"
  | deadline => "overflow when adding duration to instant"

end Overflow

end OnDemand
