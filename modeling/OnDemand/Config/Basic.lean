import OnDemand.Command
import OnDemand.Duration
import OnDemand.FileTree
import OnDemand.Policy
import OnDemand.Processors
import OnDemand.SourceDirectory
import OnDemand.ArtifactDirectory
import OnDemand.Text.Escaped

/-!
# Configuration

What the engine is set up with. Paths are relative to the directory of the configuration file.
Values that can be written but cannot work are found by `Config.validate`.
-/

namespace OnDemand

/-- The settings in effect. -/
structure Config where
  policy : Policy
  sources : SourceDirectory
  /-- The compiler, if one is set. -/
  program : Option String
  form : CommandForm
  /-- The bound on fetching, in milliseconds. -/
  fetchTimeout : Option UInt64
  /-- The bound on compiling, in milliseconds. -/
  compileTimeout : Option UInt64
  /-- How many seconds a failure is remembered. -/
  failureTtl : Option UInt64
  /-- The identifiers of built-in processors. -/
  processors : List String
  /-- Where artifacts are kept between runs. -/
  artifacts : Path
deriving DecidableEq

/-- Why there is no configuration to work with. -/
inductive ConfigError where
  | unreadable (file : Path) (e : FileError)
  /-- The text is not TOML, or a setting has a value of the wrong type. -/
  | malformed (file : Path) (message : String)
  | invalid (key message : String)
deriving DecidableEq

namespace ConfigError

def message : ConfigError → String
  | unreadable file e => "failed to read " ++ file.text ++ ": " ++ e.message
  | malformed file message => "invalid config " ++ file.text ++ ": " ++ message
  | invalid key message => "invalid value for '" ++ key ++ "': " ++ message

end ConfigError

namespace Config

/-- The settings where nothing else is said. -/
def initial : Config where
  policy := ⟨[], []⟩
  sources := ⟨⟨"sources"⟩, "src", none⟩
  program := none
  form := {
    arguments := []
    processorFlag := "--processors"
    outputFlag := "--out"
    linkFlag := none
    sourceExtension := "src"
    artifactExtension := "bin"
    separator := '/'
    concurrent := false }
  fetchTimeout := none
  compileTimeout := none
  failureTtl := none
  processors := []
  artifacts := ⟨".summon/artifacts"⟩

instance : Inhabited Config := ⟨initial⟩

/-! ## Values that cannot work -/

def checkSeparator (c : Config) : Except ConfigError Unit :=
  if c.form.separator = '/' ∨ c.form.separator = '.' then .ok ()
  else .error (.invalid "backend.separator"
    ("expected '/' or '.', got " ++ Text.quoteChar c.form.separator))

def checkProgram (c : Config) : Except ConfigError Unit :=
  if c.program.any isBlankText then .error (.invalid "backend.program" "must not be empty")
  else .ok ()

def checkTimeout (key : String) (timeout : Option UInt64) : Except ConfigError Unit :=
  if timeout = some 0 then
    .error (.invalid key "must be greater than zero; omit it for no limit")
  else .ok ()

/-- An empty prefix would make every name remote, or none. -/
def checkPrefixes (c : Config) : Except ConfigError Unit :=
  if "" ∈ c.policy.remote ++ c.policy.platform then
    .error (.invalid "namespace" "empty prefix \"\" would match every name")
  else .ok ()

/-- The first value that cannot work. -/
def validate (c : Config) : Except ConfigError Unit := do
  c.checkSeparator
  c.checkProgram
  checkTimeout "limits.fetch_timeout_ms" c.fetchTimeout
  checkTimeout "limits.compile_timeout_ms" c.compileTimeout
  c.checkPrefixes

/-! ## What the settings mean -/

def limits (c : Config) : Limits :=
  ⟨c.fetchTimeout.map .ofMillis, c.compileTimeout.map .ofMillis⟩

/-- How long failures are remembered; zero seconds mean not at all. -/
def ttl (c : Config) : Option Duration :=
  (c.failureTtl.filter (· ≠ 0)).map .ofSeconds

def builtin (c : Config) : ProcessorSet :=
  TextSet.ofList c.processors

def command? (c : Config) : Option Command :=
  c.program.map fun program => { c.form with program := program }

/-- The sources, with the configuration in a directory. -/
def sourcesAt (c : Config) (base : Path) : SourceDirectory :=
  { c.sources with root := base.join c.sources.root }

/-- The kept artifacts, with the configuration in a directory. -/
def artifactsAt (c : Config) (base : Path) : ArtifactDirectory :=
  ⟨base.join c.artifacts, c.form.artifactExtension, c.form.separator, []⟩

end Config

end OnDemand
