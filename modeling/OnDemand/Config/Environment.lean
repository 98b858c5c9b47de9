import OnDemand.Config.Reader
import OnDemand.Environment

/-!
# Settings from the environment

Variables override single settings, and say where the user's own configuration is. A number that
cannot be read, a blank program and a list without an entry change nothing.
-/

namespace OnDemand

namespace Config

/-- A count of decimal digits that fits in 64 bits, with blanks around it and a plus before it or
not. -/
def parseCount (text : String) : Option UInt64 :=
  let digits := match Text.trim text.toList with
    | '+' :: cs => cs
    | cs => cs
  if digits.isEmpty || !digits.all Char.isDigit then none
  else
    let n := digits.foldl (fun n c => n * 10 + (c.toNat - 48)) 0
    if n < 1 <<< 64 then some (.ofNat n) else none

/-- The entries of a list with commas between, without blanks around them and without empty
ones. -/
def parseList (text : String) : List String :=
  ((piecesOf (· == ',') text).map trimmed).filter (· ≠ "")

def programFrom (env : Environment) : Option String :=
  (env.lookup "SUMMON_BACKEND").filter (!isBlankText ·)

def remoteFrom (env : Environment) : Option (List String) :=
  ((env.lookup "SUMMON_REMOTE_PREFIXES").map parseList).filter (!·.isEmpty)

def countFrom (env : Environment) (name : String) : Option UInt64 :=
  (env.lookup name).bind parseCount

/-- A configuration with the settings that the environment overrides. -/
def override (c : Config) (env : Environment) : Config :=
  { c with
    program := (programFrom env).or c.program
    sources := { c.sources with
      root := ((env.lookup "SUMMON_SOURCE_ROOT").map Path.mk).getD c.sources.root }
    policy := { c.policy with remote := (remoteFrom env).getD c.policy.remote }
    fetchTimeout := (countFrom env "SUMMON_FETCH_TIMEOUT_MS").or c.fetchTimeout
    compileTimeout := (countFrom env "SUMMON_COMPILE_TIMEOUT_MS").or c.compileTimeout
    failureTtl := (countFrom env "SUMMON_FAILURE_TTL_SECS").or c.failureTtl
    artifacts := ((env.lookup "SUMMON_STORE_DIR").map Path.mk).getD c.artifacts }

/-! ## Configuration files -/

/-- The file that a project keeps its configuration in. -/
def projectFile : Path := ⟨"summon.toml"⟩

/-- The directory of the user's configurations. -/
def userDirectory (env : Environment) : Option Path :=
  match ((env.lookup "XDG_CONFIG_HOME").map Path.mk).filter Path.isAbsolute with
  | some dir => some dir
  | none =>
    ((env.lookup "HOME").filter (· ≠ "")).map fun home => Path.join ⟨home⟩ ⟨".config"⟩

/-- The file that the user's configuration is kept in. -/
def userFile (env : Environment) : Option Path :=
  (userDirectory env).map fun dir => (dir.join ⟨"summon"⟩).join ⟨"config.toml"⟩

/-- The configuration file of the project, else of the user. -/
def discover (t : FileTree) (cwd : Location) (env : Environment) (project : Option Path) :
    Option Path :=
  let ofProject := (project.map (·.join projectFile)).filter (t.isFile cwd)
  ofProject.or ((userFile env).filter (t.isFile cwd))

/-- The configuration in a file, with warnings. -/
def load (t : FileTree) (cwd : Location) (file : Path) :
    Except ConfigError (Config × List Warning) :=
  match t.readText cwd file with
  | .error e => .error (.unreadable file e)
  | .ok text => parse file text

/-- The configuration in effect in a project: that of its file or the user's, if it can be read,
with the overrides of the environment. -/
def inEffect (t : FileTree) (cwd : Location) (env : Environment) (project : Option Path) :
    Config :=
  let found := (discover t cwd env project).bind fun file => (load t cwd file).toOption
  ((found.map Prod.fst).getD initial).override env

end Config

end OnDemand
