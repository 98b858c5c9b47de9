import OnDemand.Error
import OnDemand.Json

/-!
# Events

What the engine tells while it works, and the line of JSON for each event. The keys of a line are
in ascending order.
-/

namespace OnDemand

/-- Something the engine did. -/
inductive Event where
  | cacheHit (name : Name)
  | cacheMiss (name : Name) (remote : Bool)
  /-- A lookup waits for another of the same name. -/
  | joined (name : Name)
  /-- A remembered failure answered a lookup. -/
  | negativeHit (name : Name)
  | fetchStarted (name : Name) (repository : String)
  | fetched (name : Name) (found : Bool)
  | fetchFailed (name : Name) (error : String)
  | compileSkipped (requested : Nat)
  | compileStarted (backend : String) (units : List Name) (skipped processors : Nat)
  | compiled (units produced : List Name)
  | compileFailed (units : List Name) (error : String) (discarded : Nat)
  | timedOut (operation : Operation) (name : Option Name)
deriving DecidableEq

namespace Event

def nameList (names : List Name) : Json :=
  Json.strings (names.map Name.text)

/-- The members of an event's line. -/
def fields : Event → List (String × Json)
  | cacheHit name => [("event", .string "cache_hit"), ("name", .string name.text)]
  | cacheMiss name remote =>
    [("event", .string "cache_miss"), ("name", .string name.text), ("remote", .bool remote)]
  | joined name => [("event", .string "joined"), ("name", .string name.text)]
  | negativeHit name => [("event", .string "negative_hit"), ("name", .string name.text)]
  | fetchStarted name repository =>
    [("event", .string "fetch_start"), ("name", .string name.text),
      ("repository", .string repository)]
  | fetched name found =>
    [("event", .string "fetched"), ("found", .bool found), ("name", .string name.text)]
  | fetchFailed name error =>
    [("error", .string error), ("event", .string "fetch_error"), ("name", .string name.text)]
  | compileSkipped requested =>
    [("event", .string "compile_skipped"), ("requested", .number requested)]
  | compileStarted backend units skipped processors =>
    [("backend", .string backend), ("event", .string "compile_start"),
      ("processors", .number processors), ("skipped", .number skipped), ("units", nameList units)]
  | compiled units produced =>
    [("event", .string "compiled"), ("produced", nameList produced), ("units", nameList units)]
  | compileFailed units error discarded =>
    [("discarded", .number discarded), ("error", .string error),
      ("event", .string "compile_error"), ("units", nameList units)]
  | timedOut operation name =>
    [("event", .string "timeout"), ("name", Json.optional (name.map Name.text)),
      ("operation", .string operation.text)]

/-- The line of an event, without the newline that ends it. -/
def line (e : Event) : String :=
  (Json.members e.fields).text

end Event

/-- Who listens to the engine. -/
inductive Listener where
  /-- Nobody. -/
  | none
  /-- All events but hits and misses of the store. -/
  | withoutLookups
  | all
deriving DecidableEq, Inhabited

namespace Listener

/-- Whether hits and misses of the store are told. -/
def wantsLookups : Listener → Bool
  | all => true
  | _ => false

end Listener

end OnDemand
