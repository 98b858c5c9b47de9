import Mathlib.Data.List.Basic
import OnDemand.Cli
import OnDemand.Proofs.Config.Rendering

/-!
# The configuration shown

Asked for the configuration in effect, the program prints some comment lines and a document that reads
as that configuration again, whatever its texts hold (`shown_config_iff`). An environment variable can
set a count that TOML has no integer for. Such a configuration is accepted and cannot be shown.
-/

namespace OnDemand.Cli

open Act

/-! ## Running an act -/

namespace Act

variable {α β : Type} {m : Act α} {f : α → Act β} {a : α} {e : TaskError} {c c' : Console}

theorem run_bind (h : m.run.run c = (.ok a, c')) (f : α → Act β) :
    (m >>= f).run.run c = (f a).run.run c' := by
  rw [ExceptT.run_bind, StateT.run_bind, h]
  rfl

theorem run_bind_error (h : m.run.run c = (.error e, c')) (f : α → Act β) :
    (m >>= f).run.run c = (.error e, c') := by
  rw [ExceptT.run_bind, StateT.run_bind, h]
  rfl

theorem run_ofExcept {x : Except TaskError α} (h : x = .ok a) (c : Console) :
    (ofExcept x : Act α).run.run c = (.ok a, c) := by
  rw [h]
  rfl

end Act

variable {p : Place} {i : Invocation} {l : Loaded} {t : FileTree}

theorem run_warn (json : Bool) : ∀ (ws : List Config.Warning) (c : Console),
    ∃ err, (warn json ws).run.run c = (.ok (), { c with err := err })
  | [], c => ⟨c.err, rfl⟩
  | _ :: ws, c => run_warn json ws { c with err := _ }

theorem run_readConfig (hread : Loaded.read p t i.config = .ok l) :
    ∃ err, (readConfig p i).run.run ⟨t, "", ""⟩ = (.ok l, ⟨t, "", err⟩) := by
  obtain ⟨err, hwarn⟩ := run_warn i.json l.warnings ⟨t, "", ""⟩
  refine ⟨err, ?_⟩
  unfold readConfig
  rw [run_bind (rfl : tree.run.run ⟨t, "", ""⟩ = (.ok t, _)), run_bind (run_ofExcept hread _),
    run_bind hwarn]
  rfl

/-! ## Showing the configuration -/

def Loaded.heading (l : Loaded) : String :=
  "# effective configuration from " ++ (l.file.map Path.text).getD "built-in defaults" ++ "\n" ++
    if l.config.program.isNone then
      "# note: no [backend].program set; resolve and compile will fail" ++ "\n"
    else ""

theorem run_checkConfig (hjson : i.json = false) (hread : Loaded.read p t i.config = .ok l)
    (hvalid : l.validate = .ok ()) :
    ∃ err, (checkConfig p i).run.run ⟨t, "", ""⟩ =
      match l.config.toToml with
      | .ok text => (.ok (), ⟨t, l.heading ++ text, err⟩)
      | .error e => (.error (.rendering e), ⟨t, l.heading, err⟩) := by
  obtain ⟨err, hconfig⟩ := run_readConfig hread
  refine ⟨err, ?_⟩
  unfold checkConfig
  rw [run_bind hconfig, run_bind (run_ofExcept hvalid _)]
  simp only [hjson, Bool.false_eq_true, if_false]
  unfold Loaded.heading
  rw [run_bind (rfl : (printLine ("# effective configuration from " ++
    (l.file.map Path.text).getD "built-in defaults")).run.run ⟨t, "", err⟩ = (.ok (), _))]
  -- without a program the heading has a note
  by_cases hprogram : l.config.program.isNone = true
  · simp only [hprogram, if_true]
    rw [run_bind (rfl : (printLine
      "# note: no [backend].program set; resolve and compile will fail").run.run _ = (.ok (), _))]
    cases l.config.toToml with
    | ok text => simp only [String.empty_append]; rfl
    | error e => simp only [String.empty_append]; rfl
  · simp only [hprogram, Bool.false_eq_true, if_false]
    cases l.config.toToml with
    | ok text => simp only [String.append_empty]; rfl
    | error e => simp only [String.append_empty]; rfl

/-- A configuration that is accepted is shown as a document that reads as that configuration again,
without a warning, exactly if all its counts are integers of TOML. Otherwise the run fails. -/
theorem shown_config_iff {args : List String} (hargs : parse args = .ok i)
    (htask : i.task = .checkConfig) (hjson : i.json = false)
    (hread : Loaded.read p t i.config = .ok l) (hvalid : l.validate = .ok ()) :
    (l.config.Writable ↔ ∃ text, l.config.toToml = .ok text ∧
      (run p t args).code = 0 ∧ (run p t args).console.out = l.heading ++ text ∧
      ∀ file, Config.parse file text = .ok (l.config, [])) ∧
    (¬ l.config.Writable → (run p t args).code = 1 ∧ (run p t args).console.out = l.heading) := by
  obtain ⟨err, hcheck⟩ := run_checkConfig hjson hread hvalid
  -- the run prints the text, or reports why there is none
  have hrun : run p t args = match l.config.toToml with
      | .ok text => ⟨0, ⟨t, l.heading ++ text, err⟩⟩
      | .error e => ⟨1, ⟨t, l.heading, err ++ (TaskError.rendering e).report⟩⟩ := by
    unfold run perform
    rw [hargs]
    simp only [htask]
    cases htoml : l.config.toToml with
    | ok text =>
      rw [htoml] at hcheck
      rw [run_bind hcheck]
      rfl
    | error e =>
      rw [htoml] at hcheck
      rw [run_bind_error hcheck]
      rfl
  rw [hrun]
  constructor
  · constructor
    · intro h
      rw [Config.toToml_of_writable h]
      exact ⟨_, rfl, rfl, rfl, Config.parse_write h⟩
    · rintro ⟨text, htoml, -⟩
      by_contra h
      obtain ⟨e, he⟩ := Config.toToml_of_not_writable h
      rw [he] at htoml
      cases htoml
  · intro h
    obtain ⟨e, he⟩ := Config.toToml_of_not_writable h
    rw [he]
    exact ⟨rfl, rfl⟩

def placeWith (env : Environment) : Place :=
  { environment := env, cwd := [], now := 0
    programs := fun _ _ _ t => .ok ⟨t, ByteArray.empty, .code 0, 0, fun _ => t, .none⟩ }

def loadedWith (env : Environment) : Loaded :=
  ⟨Config.initial.override env, none, [], ⟨"/"⟩⟩

/-- Texts with both quotes, a backslash, a tab and line ends, and the largest integer of TOML. -/
def quoted : Environment :=
  [("SUMMON_BACKEND", "c\"c"), ("SUMMON_SOURCE_ROOT", "a'b\"\\\n"),
    ("SUMMON_STORE_DIR", "\t'''\"\"\"\r\n"), ("SUMMON_REMOTE_PREFIXES", "x., '\", \\"),
    ("SUMMON_FAILURE_TTL_SECS", "9223372036854775807")]

theorem shown_config_iff_quoted :
    ∃ text, (run (placeWith quoted) .empty ["check-config"]).code = 0 ∧
      (run (placeWith quoted) .empty ["check-config"]).console.out =
        "# effective configuration from built-in defaults\n" ++ text ∧
      ∀ file, Config.parse file text = .ok (Config.initial.override quoted, []) := by
  have hcounts : (loadedWith quoted).config.fetchTimeout = none ∧
      (loadedWith quoted).config.compileTimeout = none ∧
      (loadedWith quoted).config.failureTtl = some 9223372036854775807 := by decide +kernel
  have hwritable : (loadedWith quoted).config.Writable := by
    unfold Config.Writable
    rw [hcounts.1, hcounts.2.1, hcounts.2.2]
    simp
  have hargs : parse ["check-config"] = .ok ⟨none, false, .checkConfig⟩ := by decide +kernel
  have hread : Loaded.read (placeWith quoted) .empty none = .ok (loadedWith quoted) := by
    decide +kernel
  have hvalid : (loadedWith quoted).validate = .ok () := by decide +kernel
  obtain ⟨text, -, hcode, hout, hparse⟩ :=
    (shown_config_iff hargs rfl rfl hread hvalid).1.mp hwritable
  have hheading : (loadedWith quoted).heading = "# effective configuration from built-in defaults\n" := by
    decide +kernel
  exact ⟨text, hcode, hheading ▸ hout, hparse⟩

def immense : Environment :=
  [("SUMMON_FETCH_TIMEOUT_MS", "9223372036854775808")]

theorem accepted_config_not_shown :
    Loaded.read (placeWith immense) .empty none = .ok (loadedWith immense) ∧
      (loadedWith immense).validate = .ok () ∧
      (loadedWith immense).config.toToml = .error ⟨9223372036854775808⟩ ∧
      (run (placeWith immense) .empty ["check-config"]).code = 1 := by
  decide +kernel

end OnDemand.Cli
