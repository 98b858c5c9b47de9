import Mathlib.Data.List.Basic
import OnDemand.Cli
import OnDemand.Event
import OnDemand.Proofs.Json
import OnDemand.Proofs.Text

/-!
# Events read back

Each event is a line of JSON from which the event can be told again: the label says which shape it has,
and no shape leaves a field out. So a text with one line for each event, which is what a listener
writes, is read back as those events (`lines_decode`).
-/

namespace OnDemand

namespace Name

def listOf? : Json → Option (List Name)
  | .array js => js.mapM fun
    | .string s => parse? s
    | _ => none
  | _ => none

end Name

namespace Operation

def ofText? : String → Option Operation
  | "fetch" => some fetch
  | "compile" => some compile
  | "wait" => some wait
  | _ => none

theorem ofText?_text (o : Operation) : ofText? o.text = some o := by
  cases o <;> rfl

end Operation

namespace Event

/-! ## Members of a line -/

section
variable (fs : List (String × Json)) (key : String)

def stringAt : Option String :=
  match fs.lookup key with
  | some (.string s) => some s
  | _ => none

def flagAt : Option Bool :=
  match fs.lookup key with
  | some (.bool b) => some b
  | _ => none

def countAt : Option Nat :=
  match fs.lookup key with
  | some (.number n) => some n
  | _ => none

def nameAt : Option Name :=
  (stringAt fs key).bind Name.parse?

def namesAt : Option (List Name) :=
  (fs.lookup key).bind Name.listOf?

def optionalNameAt : Option (Option Name) :=
  match fs.lookup key with
  | some .null => some none
  | _ => (nameAt fs key).map some

end

/-! ## Reading -/

def ofFields? (fs : List (String × Json)) : Option Event :=
  match stringAt fs "event" with
  | some "cache_hit" => (nameAt fs "name").map cacheHit
  | some "cache_miss" => do return cacheMiss (← nameAt fs "name") (← flagAt fs "remote")
  | some "joined" => (nameAt fs "name").map joined
  | some "negative_hit" => (nameAt fs "name").map negativeHit
  | some "fetch_start" => do return fetchStarted (← nameAt fs "name") (← stringAt fs "repository")
  | some "fetched" => do return fetched (← nameAt fs "name") (← flagAt fs "found")
  | some "fetch_error" => do return fetchFailed (← nameAt fs "name") (← stringAt fs "error")
  | some "compile_skipped" => (countAt fs "requested").map compileSkipped
  | some "compile_start" => do
    return compileStarted (← stringAt fs "backend") (← namesAt fs "units") (← countAt fs "skipped")
      (← countAt fs "processors")
  | some "compiled" => do return compiled (← namesAt fs "units") (← namesAt fs "produced")
  | some "compile_error" => do
    return compileFailed (← namesAt fs "units") (← stringAt fs "error") (← countAt fs "discarded")
  | some "timeout" => do
    return timedOut (← (stringAt fs "operation").bind Operation.ofText?) (← optionalNameAt fs "name")
  | _ => none

def ofJson? : Json → Option Event
  | .members fs => ofFields? fs
  | _ => none

def ofLine? (line : String) : Option Event :=
  (Json.read? line).bind ofJson?

def ofText? (text : String) : Option (List Event) :=
  (linesOf text).mapM ofLine?

/-! ## One event -/

theorem listOf?_nameList (ns : List Name) : Name.listOf? (nameList ns) = some ns := by
  unfold nameList Json.strings Name.listOf?
  induction ns with
  | nil => rfl
  | cons n ns ih =>
    simp only [List.map_cons, List.mapM_cons, Name.parse?_text] at ih ⊢
    rw [ih]
    rfl

theorem ofFields?_fields (e : Event) : ofFields? e.fields = some e := by
  cases e with
  | timedOut o n =>
    cases n with
    | none =>
      simp [ofFields?, fields, List.lookup_cons, stringAt, optionalNameAt, Operation.ofText?_text,
        Json.optional]
    | some n =>
      simp [ofFields?, fields, List.lookup_cons, stringAt, nameAt, optionalNameAt,
        Operation.ofText?_text, Name.parse?_text, Json.optional]
  | _ =>
    simp [ofFields?, fields, List.lookup_cons, stringAt, flagAt, countAt, nameAt, namesAt,
      Name.parse?_text, listOf?_nameList]

theorem ofLine?_line (e : Event) : ofLine? e.line = some e := by
  unfold ofLine? line
  rw [Json.read?_text]
  exact ofFields?_fields e

theorem line_injective : Function.Injective line := by
  intro e e' h
  have h' := congrArg ofLine? h
  rwa [ofLine?_line, ofLine?_line, Option.some.injEq] at h'

/-! ## A line for each event -/

theorem isLine_line (e : Event) : Text.IsLine e.line.toList := by
  have htext : e.line.toList = '\x7b' :: (Json.fieldChars e.fields ++ ['\x7d']) := by
    simp [line, Json.text, Json.chars]
  constructor
  · intro hn
    have hmem : '\n' ∈ Json.chars (.members e.fields) := by
      simpa [line, Json.text] using hn
    exact Json.not_lt_space_of_mem_chars hmem (by decide)
  · rw [htext]
    refine Text.trim_eq_self ?_ ?_
    · rintro x hx
      obtain rfl := Option.some.inj hx
      decide
    · rintro x hx
      rw [← List.cons_append, List.getLast?_concat] at hx
      obtain rfl := Option.some.inj hx
      decide

/-- What a listener has written that writes a line for each event. -/
def written (es : List Event) : String :=
  String.join (es.map fun e => e.line ++ "\n")

theorem toList_written : ∀ es : List Event,
    (written es).toList = es.flatMap fun e => e.line.toList ++ ['\n']
  | [] => rfl
  | e :: es => by
    have ih := toList_written es
    unfold written at ih ⊢
    rw [List.map_cons, String.join_cons, String.toList_append, ih]
    simp

theorem intercalate_lines : ∀ {es : List Event}, es ≠ [] →
    ['\n'].intercalate (es.map fun e => e.line.toList) ++ ['\n'] =
      es.flatMap fun e => e.line.toList ++ ['\n']
  | [e], _ => by simp
  | e :: f :: es, _ => by
    have ih := intercalate_lines (List.cons_ne_nil f es)
    rw [List.map_cons] at ih
    rw [List.map_cons, List.map_cons, List.intercalate_cons_cons, List.append_assoc, ih]
    simp

theorem linesOf_written (es : List Event) : linesOf (written es) = es.map line := by
  unfold linesOf
  rw [toList_written]
  cases es with
  | nil => rfl
  | cons e es =>
    have hlines : ∀ l ∈ (e :: es).map fun e => e.line.toList, Text.IsLine l := by
      rintro _ hl
      obtain ⟨f, -, rfl⟩ := List.mem_map.mp hl
      exact isLine_line f
    rw [← intercalate_lines (by simp), Text.lines_closed (by simp) hlines, List.map_map]
    exact List.map_congr_left fun f _ => String.ofList_toList

theorem ofText?_written (es : List Event) : ofText? (written es) = some es := by
  unfold ofText?
  rw [linesOf_written]
  induction es with
  | nil => rfl
  | cons e es ih =>
    rw [List.map_cons, List.mapM_cons, ofLine?_line, ih]
    rfl

theorem run_forM_complain : ∀ (es : List Event) (c : Cli.Console),
    ((es.map line).forM Cli.Act.complain).run.run c = (.ok (), { c with err := c.err ++ written es })
  | [], c => by
    simp only [written, List.map_nil, String.join_nil, String.append_empty]
    rfl
  | e :: es, c => by
    have ih := run_forM_complain es { c with err := c.err ++ e.line ++ "\n" }
    have hwritten : c.err ++ written (e :: es) = c.err ++ e.line ++ "\n" ++ written es := by
      simp [written, String.join_cons, String.append_assoc]
    rw [hwritten]
    exact ih

/-- Events that are told on an error stream stand there with a line for each, in order. No line holds a
line end, the lines are read back as the events, and no two events have the same line. -/
theorem lines_decode (es : List Event) (c : Cli.Console) :
    ((es.map line).forM Cli.Act.complain).run.run c =
        (.ok (), { c with err := c.err ++ written es }) ∧
      linesOf (written es) = es.map line ∧ (∀ e : Event, '\n' ∉ e.line.toList) ∧
      ofText? (written es) = some es ∧ Function.Injective line :=
  ⟨run_forM_complain es c, linesOf_written es, fun e => (isLine_line e).closed, ofText?_written es,
    line_injective⟩

end Event

end OnDemand
