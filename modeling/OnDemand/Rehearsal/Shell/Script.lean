/-!
# Shell scripts

What a script consists of: words with their quoting and expansions, and commands. Text is bytes,
each kept as the character with its number.
-/

namespace OnDemand.Rehearsal.Shell

/-- What is done with the value of a parameter. -/
inductive ParameterUse where
  | plain
  | length
  /-- Stands in for a value that is unset or, with a colon, empty. -/
  | orDefault (colon : Bool)
  /-- Is assigned instead of a value that is unset or, with a colon, empty. -/
  | orAssign (colon : Bool)
  /-- Takes the place of a value that is set and, with a colon, not empty. -/
  | ifSet (colon : Bool)
  /-- Ends the script where the value is unset or, with a colon, empty. -/
  | orFail (colon : Bool)
  /-- Cuts off the shortest or longest matching beginning. -/
  | cutFront (longest : Bool)
  /-- Cuts off the shortest or longest matching end. -/
  | cutBack (longest : Bool)
deriving DecidableEq

/-- What a descriptor is connected with. -/
inductive RedirectKind where
  | input
  | output
  | append
  | duplicate
  | text
deriving DecidableEq

mutual

/-- A part of a word. -/
inductive Part where
  | text (s : String)
  | quoted (s : String)
  | parameter (name : String) (use : ParameterUse) (word : List Part) (inQuotes : Bool)
  | output (body : List Command) (inQuotes : Bool)
  | arithmetic (expression : List Part) (inQuotes : Bool)

/-- A connection of a descriptor. -/
inductive Redirect where
  | mk (descriptor : Nat) (kind : RedirectKind) (target : List Part)

/-- A command. Those that can fail by themselves know their line. -/
inductive Command where
  | simple (line : Nat) (assignments : List (String × List Part)) (words : List (List Part))
      (redirects : List Redirect)
  | redirected (line : Nat) (body : Command) (redirects : List Redirect)
  | pipeline (stages : List Command)
  | negated (body : Command)
  | both (first second : Command)
  | either (first second : Command)
  | group (body : List Command)
  | subshell (body : List Command)
  | choice (condition yes no : List Command)
  | loop (whileTrue : Bool) (condition body : List Command)
  | each (name : String) (words : Option (List (List Part))) (body : List Command)
  | select (word : List Part) (arms : List (List (List Part) × List Command))
  | define (name : String) (body : Command)

end

instance : Inhabited Command := ⟨.group []⟩

/-- A word with its quoting and expansions. -/
abbrev Word := List Part

/-- A script that cannot be read further. -/
structure ScriptError where
  line : Nat
  message : String
deriving DecidableEq

end OnDemand.Rehearsal.Shell
