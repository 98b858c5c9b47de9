import OnDemand.Engine.State
import OnDemand.Text.Lines

/-!
# Scripted compiler runs

A compiler that does what the text of its units says, one line after the other. The first word of
a line tells what to do: emit an artifact, ask for a stored one, wait at a gate, report, fail or
crash. A line with another word does nothing.
-/

namespace OnDemand.Rehearsal

open Engine

/-- The text before the first space and the text after it. -/
def cutAtSpace (cs : List Char) : String × String :=
  (String.ofList (cs.takeWhile (· ≠ ' ')), String.ofList ((cs.dropWhile (· ≠ ' ')).drop 1))

/-- A line of a script and the origin of its unit. -/
structure Line where
  word : String
  rest : String
  origin : Origin

namespace Line

def ofUnit (u : SourceUnit) : List Line :=
  (Text.lines u.text.toList).map fun cs =>
    let (word, rest) := cutAtSpace cs
    ⟨word, rest, u.origin⟩

end Line

/-- A compiler run in progress. -/
structure Run where
  lines : List Line
  /-- What every unit's payload ends with. -/
  suffix : String
  processors : ProcessorSet
  emitted : List Artifact
  diagnostics : List String
  failure : Option String

namespace Run

def start (units : List SourceUnit) (suffix : String) (processors : ProcessorSet) : Run where
  lines := units.flatMap Line.ofUnit
  suffix := suffix
  processors := processors
  emitted := []
  diagnostics := []
  failure := none

def emit (r : Run) (name : Name) (payload : ByteArray) : Run :=
  { r with emitted := r.emitted ++ [.plain name payload] }

def emitAs (r : Run) (name : Name) (payload : String) (c : Capability) : Run :=
  { r with emitted := r.emitted ++ [(Artifact.plain name payload.toUTF8).withCapability c] }

/-- A run that fails at once. -/
def stop (message : String) (partials : List Artifact) : BuildReply :=
  .failed ⟨message, [], partials⟩

/-- What a run that came to its end leaves. -/
def finish (r : Run) : BuildReply :=
  match r.failure with
  | some message => .failed ⟨message, r.diagnostics, r.emitted⟩
  | none => .output ⟨r.emitted, r.diagnostics⟩

/-- A line that begins with a name emits an artifact of that name, or stops the run. -/
def emitLine (r : Run) (store : Store) (l : Line) (name : Name) (more : String) :
    Except BuildReply Run :=
  match l.word with
  | "unit" => .ok (r.emit name ("bin:" ++ name.text ++ r.suffix).toUTF8)
  | "data" => .ok (r.emit name more.toUTF8)
  | "processor" => .ok (r.emitAs name ("proc:" ++ name.text) .extensionProcessor)
  | "custom" => .ok (r.emitAs name ("bin:" ++ name.text) (.custom more))
  | "origin" => .ok (r.emit name l.origin.text.toUTF8)
  | "procs" => .ok (r.emit name ((Processors.optionValue r.processors).getD "").toUTF8)
  | "stored" => .ok (r.emit name (",".intercalate (store.names.map Name.text)).toUTF8)
  | "link" =>
    match (Name.parse? more).bind store.get? with
    | some a => .ok (r.emit name ("link:".toUTF8 ++ a.payload))
    | none => .error (stop ("cannot link " ++ more) [])
  | "needs" =>
    if store.contains name || r.emitted.any (·.name = name) then .ok r
    else .error (stop ("cannot find symbol " ++ name.text) r.emitted)
  | _ => .ok r

/-- The words after which a line names an artifact. -/
def naming : List String :=
  ["unit", "data", "processor", "custom", "origin", "procs", "stored", "link", "needs"]

/-- Goes on until the run ends or a gate stops it. -/
def goOn (store : Store) (isOpen : String → Bool) (r : Run) : List Line → Run × Option BuildReply
  | [] => ({ r with lines := [] }, some r.finish)
  | l :: ls =>
    if l.word = "block" then
      let (gate, _) := cutAtSpace l.rest.toList
      if isOpen gate then goOn store isOpen r ls else ({ r with lines := l :: ls }, none)
    else if l.word = "panic" then (r, some .crashed)
    else if l.word = "diag" then
      goOn store isOpen { r with diagnostics := r.diagnostics ++ [l.rest] } ls
    else if l.word = "fail" then goOn store isOpen { r with failure := some l.rest } ls
    else if l.word ∈ naming then
      let (n, more) := cutAtSpace l.rest.toList
      match Name.parse n with
      | .error e => (r, some (stop e.message []))
      | .ok name =>
        match r.emitLine store l name more with
        | .ok r => goOn store isOpen r ls
        | .error reply => (r, some reply)
    else goOn store isOpen r ls

end Run

end OnDemand.Rehearsal
