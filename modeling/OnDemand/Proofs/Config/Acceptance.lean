import OnDemand.Config.Reader
import OnDemand.Proofs.Toml.RoundTrip

/-!
# Documents that are accepted

A document is accepted as a configuration only if each section in it has fields and each setting has a
value that can be one (`accepts_of_ofDocument`). All that the configuration depends on are the values
that the settings have in the sections (`ofDocument_congr`).
-/

namespace OnDemand.Config

open Toml

variable {α : Type} {doc doc' fs fs' : Fields} {key : String} {keys : List String} {v : Value}

theorem layout_plain : ∀ s ∈ layout, isBareKey s.1 = true ∧
    (∀ key ∈ s.2, isBareKey key = true) ∧ s.2.Nodup ∧ layout.lookup s.1 = some s.2 := by
  decide +kernel

theorem settingsOf_of_lookup {name : String} {settings : List String}
    (h : layout.lookup name = some settings) : settingsOf name = settings := by
  unfold settingsOf
  rw [h]
  rfl

def IsSetting (v : Value) : Prop :=
  ∃ s : Setting, s.value = v

def ReadsSettings (read : Value → Option α) : Prop :=
  ∀ v a, read v = some a → IsSetting v

theorem text?_readsSettings : ReadsSettings text? := by
  rintro v a h
  cases v with
  | string s => exact ⟨.string s, rfl⟩
  | _ => cases h

theorem eq_map_of_mapM_text? : ∀ {vs : List Value} {ss : List String}, vs.mapM text? = some ss →
    vs = ss.map Value.string
  | [], ss, h => by
    cases h
    rfl
  | v :: vs, ss, h => by
    rw [List.mapM_cons] at h
    obtain ⟨s, hs, h⟩ := Option.bind_eq_some_iff.mp h
    obtain ⟨rest, hrest, h⟩ := Option.bind_eq_some_iff.mp h
    cases h
    cases v with
    | string t =>
      cases hs
      rw [eq_map_of_mapM_text? hrest, List.map_cons]
    | _ => cases hs

theorem texts?_readsSettings : ReadsSettings texts? := by
  rintro v ss h
  cases v with
  | array vs => exact ⟨.strings ss, by rw [eq_map_of_mapM_text? h]; rfl⟩
  | _ => cases h

theorem flag?_readsSettings : ReadsSettings flag? := by
  rintro v b h
  cases v with
  | boolean b => exact ⟨.boolean b, rfl⟩
  | _ => cases h

theorem char?_readsSettings : ReadsSettings char? := by
  rintro v c h
  cases v with
  | string s => exact ⟨.string s, rfl⟩
  | _ => cases h

theorem count?_readsSettings : ReadsSettings count? := by
  rintro v n h
  cases v with
  | integer n => exact ⟨.integer n, rfl⟩
  | _ => cases h

/-! ## Sections -/

/-- Fields in which each of some keys that is there has a value that a setting may have. -/
def Settings (keys : List String) (fs : Fields) : Prop :=
  ∀ key ∈ keys, ∀ v, fs.lookup key = some v → IsSetting v

theorem isSetting_of_setting {read : Value → Option α} {missing a : α} (hread : ReadsSettings read)
    (h : setting fs key read missing = some a) : ∀ v, fs.lookup key = some v → IsSetting v := by
  rintro v hv
  unfold setting at h
  rw [hv] at h
  exact hread v a h

theorem isSetting_of_optionalSetting {read : Value → Option α} {a : Option α}
    (hread : ReadsSettings read) (h : optionalSetting fs key read = some a) :
    ∀ v, fs.lookup key = some v → IsSetting v := by
  refine isSetting_of_setting (fun v b hb => ?_) h
  obtain ⟨a, ha, -⟩ := Option.map_eq_some_iff.mp hb
  exact hread v a ha

theorem settings_of_readPolicy {p : Policy} (h : readPolicy fs = some p) :
    Settings ["remote", "platform"] fs := by
  obtain ⟨_, hremote, h⟩ := Option.bind_eq_some_iff.mp h
  obtain ⟨_, hplatform, -⟩ := Option.bind_eq_some_iff.mp h
  unfold Settings
  simp only [List.forall_mem_cons, List.not_mem_nil, false_implies, implies_true, and_true]
  exact ⟨isSetting_of_setting texts?_readsSettings hremote,
    isSetting_of_setting texts?_readsSettings hplatform⟩

theorem settings_of_readSources {d : SourceDirectory} (h : readSources fs = some d) :
    Settings ["root", "extension", "strip_prefix"] fs := by
  obtain ⟨_, hroot, h⟩ := Option.bind_eq_some_iff.mp h
  obtain ⟨_, hextension, h⟩ := Option.bind_eq_some_iff.mp h
  obtain ⟨_, hleading, -⟩ := Option.bind_eq_some_iff.mp h
  unfold Settings
  simp only [List.forall_mem_cons, List.not_mem_nil, false_implies, implies_true, and_true]
  exact ⟨isSetting_of_setting text?_readsSettings hroot,
    isSetting_of_setting text?_readsSettings hextension,
    isSetting_of_optionalSetting text?_readsSettings hleading⟩

theorem settings_of_readForm {form : CommandForm} (h : readForm fs = some form) :
    Settings ["args", "processor_flag", "output_flag", "link_flag", "source_extension",
      "artifact_extension", "separator", "concurrent"] fs := by
  obtain ⟨_, harguments, h⟩ := Option.bind_eq_some_iff.mp h
  obtain ⟨_, hprocessor, h⟩ := Option.bind_eq_some_iff.mp h
  obtain ⟨_, houtput, h⟩ := Option.bind_eq_some_iff.mp h
  obtain ⟨_, hlink, h⟩ := Option.bind_eq_some_iff.mp h
  obtain ⟨_, hsource, h⟩ := Option.bind_eq_some_iff.mp h
  obtain ⟨_, hartifact, h⟩ := Option.bind_eq_some_iff.mp h
  obtain ⟨_, hseparator, h⟩ := Option.bind_eq_some_iff.mp h
  obtain ⟨_, hconcurrent, -⟩ := Option.bind_eq_some_iff.mp h
  unfold Settings
  simp only [List.forall_mem_cons, List.not_mem_nil, false_implies, implies_true, and_true]
  exact ⟨isSetting_of_setting texts?_readsSettings harguments,
    isSetting_of_setting text?_readsSettings hprocessor,
    isSetting_of_setting text?_readsSettings houtput,
    isSetting_of_optionalSetting text?_readsSettings hlink,
    isSetting_of_setting text?_readsSettings hsource,
    isSetting_of_setting text?_readsSettings hartifact,
    isSetting_of_setting char?_readsSettings hseparator,
    isSetting_of_setting flag?_readsSettings hconcurrent⟩

theorem Settings.cons (h : ∀ v, fs.lookup key = some v → IsSetting v) (hkeys : Settings keys fs) :
    Settings (key :: keys) fs :=
  List.forall_mem_cons.mpr ⟨h, hkeys⟩

theorem settings_nil (fs : Fields) : Settings [] fs :=
  fun _ h => by cases h

/-! ## Documents -/

/-- A section of a document with fields, whose settings have values that settings may have. -/
def SectionAccepted (doc : Fields) (name : String) (settings : List String) : Prop :=
  ∃ fs, sectionOf doc name = some fs ∧ Settings settings fs

/-- What is accepted as a configuration has nothing but settings where settings stand. -/
theorem accepts_of_ofDocument {c : Config} (h : ofDocument doc = some c) :
    ∀ s ∈ layout, SectionAccepted doc s.1 s.2 := by
  -- an accepted document has been read setting by setting
  obtain ⟨backend, hbackend, h⟩ := Option.bind_eq_some_iff.mp h
  obtain ⟨limits, hlimits, h⟩ := Option.bind_eq_some_iff.mp h
  obtain ⟨names, hnames, h⟩ := Option.bind_eq_some_iff.mp h
  obtain ⟨_, hpolicy, h⟩ := Option.bind_eq_some_iff.mp h
  obtain ⟨sources, hsources, h⟩ := Option.bind_eq_some_iff.mp h
  obtain ⟨_, hdirectory, h⟩ := Option.bind_eq_some_iff.mp h
  obtain ⟨_, hprogram, h⟩ := Option.bind_eq_some_iff.mp h
  obtain ⟨_, hform, h⟩ := Option.bind_eq_some_iff.mp h
  obtain ⟨_, hfetch, h⟩ := Option.bind_eq_some_iff.mp h
  obtain ⟨_, hcompile, h⟩ := Option.bind_eq_some_iff.mp h
  obtain ⟨failures, hfailures, h⟩ := Option.bind_eq_some_iff.mp h
  obtain ⟨_, httl, h⟩ := Option.bind_eq_some_iff.mp h
  obtain ⟨processors, hprocessors, h⟩ := Option.bind_eq_some_iff.mp h
  obtain ⟨_, hbuiltin, h⟩ := Option.bind_eq_some_iff.mp h
  obtain ⟨store, hstore, h⟩ := Option.bind_eq_some_iff.mp h
  obtain ⟨_, hdir, -⟩ := Option.bind_eq_some_iff.mp h
  have htext {fs : Fields} {key missing a : String} (h : setting fs key text? missing = some a) :=
    isSetting_of_setting text?_readsSettings h
  have hcount {fs : Fields} {key : String} {a : Option UInt64}
      (h : optionalSetting fs key count? = some a) :=
    isSetting_of_optionalSetting count?_readsSettings h
  unfold layout
  simp only [List.forall_mem_cons, List.not_mem_nil, false_implies, implies_true, and_true]
  exact ⟨⟨names, hnames, settings_of_readPolicy hpolicy⟩,
    ⟨sources, hsources, settings_of_readSources hdirectory⟩,
    ⟨backend, hbackend, .cons (isSetting_of_optionalSetting text?_readsSettings hprogram)
      (settings_of_readForm hform)⟩,
    ⟨limits, hlimits, .cons (hcount hfetch) (.cons (hcount hcompile) (settings_nil _))⟩,
    ⟨failures, hfailures, .cons (hcount httl) (settings_nil _)⟩,
    ⟨processors, hprocessors, .cons (isSetting_of_setting texts?_readsSettings hbuiltin) (settings_nil _)⟩,
    ⟨store, hstore, .cons (htext hdir) (settings_nil _)⟩⟩

/-! ## What a configuration depends on -/

def AgreeOn (keys : List String) (fs fs' : Fields) : Prop :=
  ∀ key ∈ keys, fs'.lookup key = fs.lookup key

def SectionAgrees (doc doc' : Fields) (name : String) (settings : List String) : Prop :=
  ∃ fs fs', sectionOf doc name = some fs ∧ sectionOf doc' name = some fs' ∧ AgreeOn settings fs fs'

theorem setting_congr (h : AgreeOn keys fs fs') (hkey : key ∈ keys) (read : Value → Option α)
    (missing : α) : setting fs' key read missing = setting fs key read missing := by
  unfold setting
  rw [h key hkey]

theorem optionalSetting_congr (h : AgreeOn keys fs fs') (hkey : key ∈ keys) (read : Value → Option α) :
    optionalSetting fs' key read = optionalSetting fs key read :=
  setting_congr h hkey _ _

theorem readPolicy_congr (h : AgreeOn ["remote", "platform"] fs fs') :
    readPolicy fs' = readPolicy fs := by
  unfold readPolicy
  rw [setting_congr h (by simp), setting_congr h (by simp)]

theorem readSources_congr (h : AgreeOn ["root", "extension", "strip_prefix"] fs fs') :
    readSources fs' = readSources fs := by
  unfold readSources
  rw [setting_congr h (by simp), setting_congr h (by simp), optionalSetting_congr h (by simp)]

theorem readForm_congr (h : AgreeOn ["args", "processor_flag", "output_flag", "link_flag",
    "source_extension", "artifact_extension", "separator", "concurrent"] fs fs') :
    readForm fs' = readForm fs := by
  unfold readForm
  rw [setting_congr h (by simp), setting_congr h (by simp), setting_congr h (by simp),
    optionalSetting_congr h (by simp), setting_congr h (by simp), setting_congr h (by simp),
    setting_congr h (by simp), setting_congr h (by simp)]

theorem ofDocument_of_sections {names sources backend limits failures processors store : Fields}
    (hnames : sectionOf doc "namespace" = some names) (hsources : sectionOf doc "source" = some sources)
    (hbackend : sectionOf doc "backend" = some backend) (hlimits : sectionOf doc "limits" = some limits)
    (hfailures : sectionOf doc "failures" = some failures)
    (hprocessors : sectionOf doc "processors" = some processors)
    (hstore : sectionOf doc "store" = some store) : ofDocument doc = do
      return {
        policy := ← readPolicy names
        sources := ← readSources sources
        program := ← optionalSetting backend "program" text?
        form := ← readForm backend
        fetchTimeout := ← optionalSetting limits "fetch_timeout_ms" count?
        compileTimeout := ← optionalSetting limits "compile_timeout_ms" count?
        failureTtl := ← optionalSetting failures "ttl_secs" count?
        processors := ← setting processors "builtin" texts? initial.processors
        artifacts := ⟨← setting store "dir" text? initial.artifacts.text⟩ } := by
  unfold ofDocument
  rw [hnames, hsources, hbackend, hlimits, hfailures, hprocessors, hstore]
  rfl

/-- Documents whose sections have the same settings are the same configuration. -/
theorem ofDocument_congr (h : ∀ s ∈ layout, SectionAgrees doc doc' s.1 s.2) :
    ofDocument doc' = ofDocument doc := by
  unfold layout at h
  simp only [List.forall_mem_cons, List.not_mem_nil, false_implies, implies_true, and_true] at h
  obtain ⟨⟨names, names', hnames, hnames', hpolicy⟩, ⟨sources, sources', hsources, hsources', hdirectory⟩,
    ⟨backend, backend', hbackend, hbackend', hform⟩, ⟨limits, limits', hlimits, hlimits', hbounds⟩,
    ⟨failures, failures', hfailures, hfailures', httl⟩,
    ⟨processors, processors', hprocessors, hprocessors', hbuiltin⟩,
    ⟨store, store', hstore, hstore', hdir⟩⟩ := h
  have hrest : AgreeOn ["args", "processor_flag", "output_flag", "link_flag", "source_extension",
      "artifact_extension", "separator", "concurrent"] backend backend' :=
    fun key hkey => hform key (List.mem_cons_of_mem _ hkey)
  rw [ofDocument_of_sections hnames' hsources' hbackend' hlimits' hfailures' hprocessors' hstore',
    ofDocument_of_sections hnames hsources hbackend hlimits hfailures hprocessors hstore,
    readPolicy_congr hpolicy, readSources_congr hdirectory, optionalSetting_congr hform (by simp),
    readForm_congr hrest, optionalSetting_congr hbounds (by simp), optionalSetting_congr hbounds (by simp),
    optionalSetting_congr httl (by simp), setting_congr hbuiltin (by simp), setting_congr hdir (by simp)]

theorem parse_eq_ok_iff {file : Path} {text : String} {c : Config} {ws : List Warning} :
    parse file text = .ok (c, ws) ↔ ∃ doc, read text = some doc ∧ ofDocument doc = some c ∧
      ws = (unknownKeys doc).map (warningFor file text) := by
  unfold parse
  cases hread : read text with
  | none => simp
  | some doc =>
    cases hof : ofDocument doc with
    | none => simp [hof]
    | some c' => simp [hof, eq_comm]

end OnDemand.Config
