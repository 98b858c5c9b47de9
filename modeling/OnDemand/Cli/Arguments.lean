import OnDemand.Path

/-!
# Command line

What the program is asked to do, read from its arguments. Options come before or after the verb and
between its words; the two that belong to all verbs may be given on either side of the verb, where
the later side counts. After `--` everything is a word.
-/

namespace OnDemand.Cli

/-- What the program is asked to do. -/
inductive Task where
  | resolve (name : String) (output : Option Path)
  | compile (files : List Path) (root : Path) (outDir : Option Path)
  | tellExists (name : String)
  | checkConfig
deriving DecidableEq

/-- A task, with the configuration file to use and whether to answer in JSON. -/
structure Invocation where
  config : Option Path
  json : Bool
  task : Task
deriving DecidableEq

/-- Why no task is to be done. -/
inductive Refusal where
  | usage
  | help
  | version
deriving DecidableEq

/-- The options. -/
inductive Key where
  | config
  | json
  | output
  | root
  | outDir
deriving DecidableEq

namespace Key

/-- All but one option stand before a path. -/
def takesPath : Key → Bool
  | json => false
  | _ => true

end Key

/-- What can be given at one side of the verb. -/
structure Level where
  /-- Options by their long names. -/
  options : List (String × Key)
  /-- Options by their short names. -/
  shorts : List (Char × Key)
  /-- How many words there may be, if there is a bound. -/
  capacity : Option Nat
  /-- Whether the words are paths. -/
  wordsArePaths : Bool
  /-- Whether it is the side before the verb. -/
  isOuter : Bool

namespace Level

def shared : List (String × Key) :=
  [("config", .config), ("json", .json)]

def outer : Level := ⟨shared, [], some 0, false, true⟩

end Level

/-- What the program can do. -/
inductive Verb where
  | resolve
  | compile
  | tellExists
  | checkConfig
deriving DecidableEq

namespace Verb

def ofText? : String → Option Verb
  | "resolve" => some resolve
  | "compile" => some compile
  | "exists" => some tellExists
  | "check-config" => some checkConfig
  | _ => none

def level : Verb → Level
  | resolve =>
    ⟨Level.shared ++ [("output", .output)], [('o', .output)], some 1, false, false⟩
  | compile =>
    ⟨Level.shared ++ [("root", .root), ("out-dir", .outDir)], [], none, true, false⟩
  | tellExists => ⟨Level.shared, [], some 1, false, false⟩
  | checkConfig => ⟨Level.shared, [], some 0, false, false⟩

end Verb

/-! ## Single arguments -/

/-- What an argument looks like. -/
inductive Argument where
  | word (text : String)
  /-- The `--` before words. -/
  | rest
  | long (name : String) (value : Option String)
  | short (name : Char) (more : List Char)
deriving DecidableEq

namespace Argument

def ofText (arg : String) : Argument :=
  match arg.toList with
  | ['-', '-'] => rest
  | '-' :: '-' :: cs =>
    let name := cs.takeWhile (· ≠ '=')
    match cs.drop name.length with
    | [] => long (String.ofList name) none
    | _ :: value => long (String.ofList name) (some (String.ofList value))
  | '-' :: c :: cs => short c cs
  | _ => word arg

def isWord (arg : String) : Bool :=
  match ofText arg with
  | word _ => true
  | _ => false

end Argument

/-! ## Sides of the verb -/

/-- What was given so far at one side of the verb. -/
structure Given where
  options : List (Key × String)
  words : List String

namespace Given

def nothing : Given := ⟨[], []⟩

/-- Adds an option. None is given twice, and no path is empty. -/
def addOption (g : Given) (k : Key) (value : String) : Except Refusal Given :=
  if g.options.any (·.1 = k) || (k.takesPath && value = "") then .error .usage
  else .ok { g with options := g.options ++ [(k, value)] }

def addWord (g : Given) (l : Level) (w : String) : Except Refusal Given :=
  if l.capacity.any (· ≤ g.words.length) || (l.wordsArePaths && w = "") then .error .usage
  else .ok { g with words := g.words ++ [w] }

def path? (g : Given) (k : Key) : Option Path :=
  (g.options.lookup k).map Path.mk

def has (g : Given) (k : Key) : Bool :=
  g.options.any (·.1 = k)

end Given

/-- What an argument asks for instead of a task. -/
def interruption? (l : Level) : Argument → Option Refusal
  | .long "help" none => some .help
  | .short 'h' _ => some .help
  | .long "version" none => if l.isOuter then some .version else none
  | .short 'V' _ => if l.isOuter then some .version else none
  | _ => none

/-- The option that an argument begins, with a value that is part of the argument. -/
def option? (l : Level) : Argument → Option (Key × Option String)
  | .long name value =>
    match l.options.lookup name with
    | some k => if value.isSome && !k.takesPath then none else some (k, value)
    | none => none
  | .short c more =>
    (l.shorts.lookup c).map fun k =>
      (k, match more with
        | [] => none
        | '=' :: cs => some (String.ofList cs)
        | cs => some (String.ofList cs))
  | _ => none

/-- The value of an option, and how many further arguments it takes up. -/
def valueOf? (k : Key) (own : Option String) (args : List String) : Option (String × Nat) :=
  if k.takesPath then
    match own, args with
    | some v, _ => some (v, 0)
    | none, v :: _ => if Argument.isWord v then some (v, 1) else none
    | none, [] => none
  else some ("", 0)

/-- Reads the arguments at one side of the verb. What is before it ends with the first word, which
is told with the rest. -/
def scan (l : Level) (g : Given) : List String → Except Refusal (Given × List String)
  | [] => .ok (g, [])
  | arg :: args =>
    match Argument.ofText arg with
    | .rest => (args.foldlM (fun (g : Given) w => g.addWord l w) g).map fun g => (g, [])
    | .word w =>
      if l.isOuter then .ok (g, w :: args)
      else match g.addWord l w with
        | .ok g => scan l g args
        | .error e => .error e
    | a =>
      match interruption? l a, option? l a with
      | some r, _ => .error r
      | none, none => .error .usage
      | none, some (k, own) =>
        match valueOf? k own args with
        | none => .error .usage
        | some (v, used) =>
          match g.addOption k v with
          | .ok g => scan l g (args.drop used)
          | .error e => .error e
termination_by args => args.length
decreasing_by all_goals simp only [List.length_drop, List.length_cons]; omega

/-! ## Whole command lines -/

/-- The task of a verb with what was given after it. -/
def task (v : Verb) (g : Given) : Except Refusal Task :=
  match v, g.words with
  | .resolve, [name] => .ok (.resolve name (g.path? .output))
  | .compile, f :: fs =>
    .ok (.compile ((f :: fs).map Path.mk) ((g.path? .root).getD ⟨"."⟩) (g.path? .outDir))
  | .tellExists, [name] => .ok (.tellExists name)
  | .checkConfig, [] => .ok .checkConfig
  | _, _ => .error .usage

/-- Whether help is there for what is named after `help`. -/
def hasHelp : List String → Bool
  | [] => true
  | [topic] => topic = "help" || (Verb.ofText? topic).isSome
  | _ => false

/-- Reads the arguments of the program. -/
def parse (args : List String) : Except Refusal Invocation := do
  let (before, rest) ← scan .outer .nothing args
  match rest with
  | [] => .error .usage
  | "help" :: topics => .error (if hasHelp topics then .help else .usage)
  | word :: rest =>
    match Verb.ofText? word with
    | none => .error .usage
    | some v =>
      let (after, _) ← scan v.level .nothing rest
      let task ← task v after
      return ⟨(after.path? .config).or (before.path? .config),
        before.has .json || after.has .json, task⟩

end OnDemand.Cli
