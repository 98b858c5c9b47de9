import OnDemand.Config.Basic
import OnDemand.Config.Suggestion
import OnDemand.Toml.Reader

/-!
# Reading a configuration

A configuration file is a TOML document of sections. Each section and each setting may be missing.
Keys that mean nothing are ignored, with a warning for each outermost one. A section may also be
written as an array of its settings in order.
-/

namespace OnDemand.Config

/-- The sections and their settings, in order. -/
def layout : List (String × List String) :=
  [("namespace", ["remote", "platform"]),
    ("source", ["root", "extension", "strip_prefix"]),
    ("backend", ["program", "args", "processor_flag", "output_flag", "link_flag",
      "source_extension", "artifact_extension", "separator", "concurrent"]),
    ("limits", ["fetch_timeout_ms", "compile_timeout_ms"]),
    ("failures", ["ttl_secs"]),
    ("processors", ["builtin"]),
    ("store", ["dir"])]

/-- The settings of a section, in order. -/
def settingsOf (name : String) : List String :=
  (layout.lookup name).getD []

/-! ## Values -/

/-- The key under which a date or time counts as a table. -/
def momentKey : String := "$__toml_private_datetime"

/-- The fields of a section from its value. -/
def sectionFields (settings : List String) : Toml.Value → Option Toml.Fields
  | .table _ fs => some fs
  | .array vs => some (settings.zip vs)
  | .tables elements => some (settings.zip (elements.map (.table .header)))
  | .moment => some [(momentKey, .moment)]
  | _ => none

/-- The fields of a section of a document; one that is missing has none. -/
def sectionOf (doc : Toml.Fields) (name : String) : Option Toml.Fields :=
  match doc.lookup name with
  | none => some []
  | some v => sectionFields (settingsOf name) v

def text? : Toml.Value → Option String
  | .string s => some s
  | _ => none

def texts? : Toml.Value → Option (List String)
  | .array vs => vs.mapM text?
  | _ => none

def flag? : Toml.Value → Option Bool
  | .boolean b => some b
  | _ => none

/-- A text of one character. -/
def char? : Toml.Value → Option Char
  | .string s =>
    match s.toList with
    | [c] => some c
    | _ => none
  | _ => none

/-- A count that fits in 64 bits. -/
def count? : Toml.Value → Option UInt64
  | .integer n => if 0 ≤ n ∧ n < Int.ofNat (1 <<< 64) then some (.ofNat n.toNat) else none
  | _ => none

/-- A setting by its key, with the value it has where it is missing. -/
def setting {α : Type} (fs : Toml.Fields) (key : String) (read : Toml.Value → Option α)
    (missing : α) : Option α :=
  match fs.lookup key with
  | none => some missing
  | some v => read v

/-- A setting that has no value where it is missing. -/
def optionalSetting {α : Type} (fs : Toml.Fields) (key : String) (read : Toml.Value → Option α) :
    Option (Option α) :=
  setting fs key (fun v => (read v).map some) none

/-! ## Sections -/

def readPolicy (fs : Toml.Fields) : Option Policy := do
  return ⟨← setting fs "remote" texts? initial.policy.remote,
    ← setting fs "platform" texts? initial.policy.platform⟩

def readSources (fs : Toml.Fields) : Option SourceDirectory := do
  return ⟨⟨← setting fs "root" text? initial.sources.root.text⟩,
    ← setting fs "extension" text? initial.sources.extension,
    ← optionalSetting fs "strip_prefix" text?⟩

def readForm (fs : Toml.Fields) : Option CommandForm := do
  return {
    arguments := ← setting fs "args" texts? initial.form.arguments
    processorFlag := ← setting fs "processor_flag" text? initial.form.processorFlag
    outputFlag := ← setting fs "output_flag" text? initial.form.outputFlag
    linkFlag := ← optionalSetting fs "link_flag" text?
    sourceExtension := ← setting fs "source_extension" text? initial.form.sourceExtension
    artifactExtension := ← setting fs "artifact_extension" text? initial.form.artifactExtension
    separator := ← setting fs "separator" char? initial.form.separator
    concurrent := ← setting fs "concurrent" flag? initial.form.concurrent }

/-- The configuration in a document, unless a value has the wrong type. -/
def ofDocument (doc : Toml.Fields) : Option Config := do
  let backend ← sectionOf doc "backend"
  let limits ← sectionOf doc "limits"
  return {
    policy := ← readPolicy (← sectionOf doc "namespace")
    sources := ← readSources (← sectionOf doc "source")
    program := ← optionalSetting backend "program" text?
    form := ← readForm backend
    fetchTimeout := ← optionalSetting limits "fetch_timeout_ms" count?
    compileTimeout := ← optionalSetting limits "compile_timeout_ms" count?
    failureTtl := ← optionalSetting (← sectionOf doc "failures") "ttl_secs" count?
    processors := ← setting (← sectionOf doc "processors") "builtin" texts? initial.processors
    artifacts := ⟨← setting (← sectionOf doc "store") "dir" text? initial.artifacts.text⟩ }

/-! ## Unknown keys -/

/-- The outermost keys that mean nothing, in the order of the document, with the section before
those in one. -/
def unknownKeys (doc : Toml.Fields) : List String :=
  doc.flatMap fun (name, v) =>
    match layout.lookup name with
    | none => [name]
    | some settings =>
      let keys := ((sectionFields settings v).getD []).map Prod.fst
      (keys.filter (· ∉ settings)).map fun key => name ++ "." ++ key

/-- A key that means nothing. -/
structure Warning where
  key : String
  file : Path
  /-- The first line that the key occurs in. -/
  line : Option Nat
  suggestion : Option String
deriving DecidableEq

namespace Warning

def text (w : Warning) : String :=
  let line := match w.line with
    | some n => ":" ++ toString n
    | none => ""
  let hint := match w.suggestion with
    | some s => " (did you mean '" ++ s ++ "'?)"
    | none => ""
  "unknown key '" ++ w.key ++ "' in " ++ w.file.text ++ line ++ hint

end Warning

/-- The number of the first line that a text occurs in. -/
def lineWith (needle : List Char) (lines : List (List Char)) : Option Nat :=
  (lines.findIdx? (Text.occurs needle)).map (· + 1)

/-- The warning about an unknown key, of which only what follows its last point is named. -/
def warningFor (file : Path) (text : String) (unknown : String) : Warning :=
  let key := (piecesOf (· == '.') unknown).getLastD unknown
  ⟨key, file, lineWith key.toList (Text.lines text.toList), suggest key⟩

/-- What an error in the text of a file is announced by. -/
def malformedText : String := "TOML parse error"

/-- The configuration in a text, with warnings. The file is only named in them. -/
def parse (file : Path) (text : String) : Except ConfigError (Config × List Warning) :=
  match Toml.read text with
  | none => .error (.malformed file malformedText)
  | some doc =>
    match ofDocument doc with
    | none => .error (.malformed file malformedText)
    | some c => .ok (c, (unknownKeys doc).map (warningFor file text))

end OnDemand.Config
