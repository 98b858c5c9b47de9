import OnDemand.Config.Basic
import OnDemand.Json
import OnDemand.Toml.Writer

/-!
# Writing a configuration

The settings in effect, as a TOML document that reads back as the same configuration, and as JSON.
TOML leaves out the settings without a value, JSON gives them as null.
-/

namespace OnDemand.Config

/-- A setting that has a value or not, as it is written. -/
inductive Shown where
  | string (s : String)
  | strings (ss : List String)
  | count (n : UInt64)
  | boolean (b : Bool)
  | unset
deriving DecidableEq

namespace Shown

def ofText? : Option String → Shown
  | some s => string s
  | none => unset

def ofCount? : Option UInt64 → Shown
  | some n => count n
  | none => unset

end Shown

/-- All settings by section. -/
def shown (c : Config) : List (String × List (String × Shown)) :=
  [("namespace", [("remote", .strings c.policy.remote), ("platform", .strings c.policy.platform)]),
    ("source", [("root", .string c.sources.root.text), ("extension", .string c.sources.extension),
      ("strip_prefix", .ofText? c.sources.leading)]),
    ("backend", [("program", .ofText? c.program), ("args", .strings c.form.arguments),
      ("processor_flag", .string c.form.processorFlag),
      ("output_flag", .string c.form.outputFlag), ("link_flag", .ofText? c.form.linkFlag),
      ("source_extension", .string c.form.sourceExtension),
      ("artifact_extension", .string c.form.artifactExtension),
      ("separator", .string (String.ofList [c.form.separator])),
      ("concurrent", .boolean c.form.concurrent)]),
    ("limits", [("fetch_timeout_ms", .ofCount? c.fetchTimeout),
      ("compile_timeout_ms", .ofCount? c.compileTimeout)]),
    ("failures", [("ttl_secs", .ofCount? c.failureTtl)]),
    ("processors", [("builtin", .strings c.processors)]),
    ("store", [("dir", .string c.artifacts.text)])]

/-! ## JSON -/

def Shown.toJson : Shown → Json
  | .string s => .string s
  | .strings ss => .strings ss
  | .count n => .number n.toNat
  | .boolean b => .bool b
  | .unset => .null

def toJson (c : Config) : Json :=
  .object (c.shown.map fun (name, settings) =>
    (name, .object (settings.map fun (key, v) => (key, v.toJson))))

/-! ## TOML -/

/-- A count beyond the integers of TOML. -/
structure TooLarge where
  count : UInt64
deriving DecidableEq

namespace TooLarge

def message (_ : TooLarge) : String :=
  "out-of-range value for u64 type"

end TooLarge

/-- The settings of a section that have a value. -/
def writtenSettings : List (String × Shown) → Except TooLarge (List (String × Toml.Setting))
  | [] => .ok []
  | (key, v) :: more =>
    let put (s : Toml.Setting) := (writtenSettings more).map ((key, s) :: ·)
    match v with
    | .string s => put (.string s)
    | .strings ss => put (.strings ss)
    | .count n => if n.toNat < 1 <<< 63 then put (.integer n.toNat) else .error ⟨n⟩
    | .boolean b => put (.boolean b)
    | .unset => writtenSettings more

/-- The configuration as a TOML document. -/
def toToml (c : Config) : Except TooLarge String := do
  let sections ← c.shown.mapM fun (name, settings) => do
    return (⟨name, ← writtenSettings settings⟩ : Toml.Section)
  return Toml.write sections

end OnDemand.Config
