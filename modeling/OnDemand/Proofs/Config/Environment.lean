import Mathlib.Data.Nat.Digits.Defs
import OnDemand.Config.Environment
import OnDemand.Proofs.Text

/-!
# What the environment changes

Each variable says something about one setting, if it says anything: a count is read exactly from the
texts that are one (`parseCount_iff`), and a blank text says nothing about the program or the prefixes.
So a setting is what its variable says, and all else is as it was; nothing changes the second time; and
of the checks of a configuration only those of the timeouts can fail after it (`override_spec`).
-/

namespace OnDemand

namespace Config

variable {c : Config} {env : Environment} {text : String}

/-! ## Counts -/

/-- The text is a count: decimal digits that make it up, with a plus before them or not, and blanks
around. -/
def Denotes (text : String) (n : UInt64) : Prop :=
  ∃ front sign digits back, text.toList = front ++ (sign ++ digits) ++ back ∧
    (∀ c ∈ front, Text.isBlank c = true) ∧ (∀ c ∈ back, Text.isBlank c = true) ∧
    (sign = [] ∨ sign = ['+']) ∧ digits ≠ [] ∧ (∀ c ∈ digits, c.isDigit = true) ∧
    Nat.ofDigits 10 (digits.reverse.map fun c => c.toNat - 48) = n.toNat

theorem foldl_eq_ofDigits (ds : List Char) : ds.foldl (fun n c => n * 10 + (c.toNat - 48)) 0 =
    Nat.ofDigits 10 (ds.reverse.map fun c => c.toNat - 48) := by
  rw [Nat.ofDigits_eq_foldr, List.foldr_map, List.foldr_reverse]
  congr
  funext n c
  simp only [Nat.cast_id]
  omega

theorem isBlank_of_isDigit {x : Char} (h : x.isDigit = true) : Text.isBlank x = false := by
  simp only [Char.isDigit, Bool.and_eq_true, decide_eq_true_eq, ge_iff_le, UInt32.le_iff_toNat_le] at h
  have hle : 48 ≤ x.toNat ∧ x.toNat ≤ 57 := h
  simp only [Text.isBlank, Bool.or_eq_false_iff, Bool.and_eq_false_iff, decide_eq_false_iff_not,
    beq_eq_false_iff_ne]
  omega

def afterPlus : List Char → List Char
  | '+' :: cs => cs
  | cs => cs

theorem exists_afterPlus (cs : List Char) : ∃ sign, (sign = [] ∨ sign = ['+']) ∧ cs = sign ++ afterPlus cs := by
  unfold afterPlus
  split
  · exact ⟨['+'], Or.inr rfl, rfl⟩
  · exact ⟨[], Or.inl rfl, rfl⟩

theorem afterPlus_append {sign digits : List Char} (hsign : sign = [] ∨ sign = ['+'])
    (hdigits : ∀ c ∈ digits, c.isDigit = true) : afterPlus (sign ++ digits) = digits := by
  rcases hsign with rfl | rfl
  · rw [List.nil_append]
    unfold afterPlus
    split
    · exact absurd (hdigits '+' (by simp)) (by decide)
    · rfl
  · rfl

theorem parseCount_eq_some_iff {n : UInt64} : parseCount text = some n ↔
    afterPlus (Text.trim text.toList) ≠ [] ∧
      (∀ c ∈ afterPlus (Text.trim text.toList), c.isDigit = true) ∧
      Nat.ofDigits 10 ((afterPlus (Text.trim text.toList)).reverse.map fun c => c.toNat - 48) = n.toNat := by
  -- after the plus there are digits alone, or nothing is read
  have hparse : ∀ ds : List Char, (if ds.isEmpty || !ds.all Char.isDigit then none
      else
        let n := ds.foldl (fun n c => n * 10 + (c.toNat - 48)) 0
        if n < 1 <<< 64 then some (UInt64.ofNat n) else none) = some n ↔
      ds ≠ [] ∧ (∀ c ∈ ds, c.isDigit = true) ∧
        Nat.ofDigits 10 (ds.reverse.map fun c => c.toNat - 48) = n.toNat := by
    intro ds
    rw [foldl_eq_ofDigits]
    generalize Nat.ofDigits 10 (ds.reverse.map fun c => c.toNat - 48) = value
    have hlt := n.toNat_lt
    by_cases hempty : ds = []
    · simp [hempty]
    by_cases hdigits : ds.all Char.isDigit = true
    · have hform : (ds.isEmpty || !ds.all Char.isDigit) = false := by simp [hempty, hdigits]
      simp only [hform, Bool.false_eq_true, if_false]
      constructor
      · intro h
        split at h
        · obtain rfl := Option.some.inj h
          rename_i hvalue
          exact ⟨hempty, List.all_eq_true.mp hdigits, by rw [UInt64.toNat_ofNat']; omega⟩
        · cases h
      · rintro ⟨-, -, rfl⟩
        rw [if_pos (by omega), UInt64.ofNat_toNat]
    · have hform : (ds.isEmpty || !ds.all Char.isDigit) = true := by simp [hdigits]
      simp only [hform, if_true, reduceCtorEq, false_iff, not_and]
      exact fun _ h => absurd (List.all_eq_true.mpr h) hdigits
  exact hparse _

/-- A variable is read as a count exactly if it is one. -/
theorem parseCount_iff {n : UInt64} : parseCount text = some n ↔ Denotes text n := by
  rw [parseCount_eq_some_iff]
  constructor
  · rintro ⟨hne, hdigits, hvalue⟩
    obtain ⟨front, back, htext, hfront, hback⟩ := Text.exists_trim text.toList
    obtain ⟨sign, hsign, htrim⟩ := exists_afterPlus (Text.trim text.toList)
    exact ⟨front, sign, _, back, htrim ▸ htext, hfront, hback, hsign, hne, hdigits, hvalue⟩
  · rintro ⟨front, sign, digits, back, htext, hfront, hback, hsign, hne, hdigits, hvalue⟩
    have htrim : Text.trim text.toList = sign ++ digits := by
      rw [htext]
      refine Text.trim_append hfront hback (by simp [hne]) ?_ ?_
      · intro x hx
        rcases hsign with rfl | rfl
        · exact isBlank_of_isDigit (hdigits x (List.mem_of_mem_head? hx))
        · obtain rfl := Option.some.inj hx
          decide
      · intro x hx
        rw [List.getLast?_append, List.getLast?_eq_some_getLast hne, Option.some_or] at hx
        obtain rfl := Option.some.inj hx
        exact isBlank_of_isDigit (hdigits _ (List.getLast_mem hne))
    rw [htrim, afterPlus_append hsign hdigits]
    exact ⟨hne, hdigits, hvalue⟩

/-! ## What a variable says -/

def GivesProgram (text : String) (program : Option String) : Prop :=
  program = some text ∧ ∃ x ∈ text.toList, Text.isBlank x = false

def GivesPath (text : String) (path : Path) : Prop :=
  path = ⟨text⟩

/-- The prefixes are what stands between commas and is not blank, without the blanks around it; there
is at least one. -/
def GivesRemote (text : String) (remote : List String) : Prop :=
  remote = ((piecesOf (· == ',') text).filter (!isBlankText ·)).map trimmed ∧ remote ≠ []

def GivesCount (text : String) (count : Option UInt64) : Prop :=
  ∃ n, count = some n ∧ Denotes text n

/-- A setting is what its variable says, if that is set and says anything, and else as it was. -/
def Overridden {α : Type} (gives : String → α → Prop) (env : Environment) (name : String)
    (old new : α) : Prop :=
  (∃ text, env.lookup name = some text ∧ gives text new) ∨
    ((∀ text, env.lookup name = some text → ∀ a, ¬ gives text a) ∧ new = old)

theorem overridden_program (c : Config) (env : Environment) :
    Overridden GivesProgram env "SUMMON_BACKEND" c.program (c.override env).program := by
  show Overridden _ _ _ _ ((programFrom env).or c.program)
  unfold programFrom
  cases h : env.lookup "SUMMON_BACKEND" with
  | none => exact Or.inr ⟨fun text ht => absurd (h.symm.trans ht) (by simp), rfl⟩
  | some text =>
    cases hb : isBlankText text with
    | false =>
      have hchar : ∃ x ∈ text.toList, Text.isBlank x = false := by
        simpa [isBlankText] using hb
      exact Or.inl ⟨text, h, by simp [Option.filter, hb], hchar⟩
    | true =>
      refine Or.inr ⟨?_, by simp [Option.filter, hb]⟩
      rintro text' ht p ⟨-, x, hx, hfalse⟩
      obtain rfl := Option.some.inj (h.symm.trans ht)
      rw [isBlankText, List.all_eq_true] at hb
      rw [hb x hx] at hfalse
      cases hfalse

theorem overridden_path (env : Environment) (name : String) (old : Path) :
    Overridden GivesPath env name old (((env.lookup name).map Path.mk).getD old) := by
  cases h : env.lookup name with
  | none => exact Or.inr ⟨fun text ht => absurd (h.symm.trans ht) (by simp), rfl⟩
  | some text => exact Or.inl ⟨text, h, rfl⟩

theorem parseList_eq (text : String) :
    parseList text = ((piecesOf (· == ',') text).filter (!isBlankText ·)).map trimmed := by
  unfold parseList
  rw [List.filter_map]
  congr 1
  refine List.filter_congr fun s _ => ?_
  cases hs : isBlankText s with
  | true => simp [isBlankText_iff.mp hs]
  | false =>
    have hne : trimmed s ≠ "" := fun h => by
      rw [isBlankText_iff.mpr h] at hs
      cases hs
    simp [hne]

theorem overridden_remote (c : Config) (env : Environment) :
    Overridden GivesRemote env "SUMMON_REMOTE_PREFIXES" c.policy.remote
      (c.override env).policy.remote := by
  show Overridden _ _ _ _ ((remoteFrom env).getD c.policy.remote)
  unfold remoteFrom
  cases h : env.lookup "SUMMON_REMOTE_PREFIXES" with
  | none => exact Or.inr ⟨fun text ht => absurd (h.symm.trans ht) (by simp), rfl⟩
  | some text =>
    by_cases hempty : parseList text = []
    · refine Or.inr ⟨?_, by simp [Option.filter, hempty]⟩
      rintro text' ht remote ⟨hremote, hne⟩
      obtain rfl := Option.some.inj (h.symm.trans ht)
      rw [← parseList_eq] at hremote
      exact hne (hremote.trans hempty)
    · have hvalue : ((some text).map parseList).filter (fun l => !l.isEmpty) = some (parseList text) := by
        simp [Option.filter, hempty]
      rw [hvalue, Option.getD_some]
      exact Or.inl ⟨text, h, parseList_eq text, hempty⟩

theorem countFrom_iff {name : String} {n : UInt64} : countFrom env name = some n ↔
    ∃ text, env.lookup name = some text ∧ Denotes text n := by
  unfold countFrom
  rw [Option.bind_eq_some_iff]
  exact exists_congr fun text => and_congr_right fun _ => parseCount_iff

theorem overridden_count (env : Environment) (name : String) (old : Option UInt64) :
    Overridden GivesCount env name old ((countFrom env name).or old) := by
  cases h : countFrom env name with
  | none =>
    refine Or.inr ⟨?_, rfl⟩
    rintro text ht _ ⟨n, -, hn⟩
    rw [countFrom_iff.mpr ⟨text, ht, hn⟩] at h
    cases h
  | some n =>
    obtain ⟨text, ht, hn⟩ := countFrom_iff.mp h
    exact Or.inl ⟨text, ht, n, rfl, hn⟩

/-! ## Checks -/

theorem validate_eq_ok : c.validate = .ok () ↔ c.checkSeparator = .ok () ∧ c.checkProgram = .ok () ∧
    c.fetchTimeout ≠ some 0 ∧ c.compileTimeout ≠ some 0 ∧ c.checkPrefixes = .ok () := by
  have hbind : ∀ {x y : Except ConfigError Unit}, (x >>= fun _ => y) = .ok () ↔ x = .ok () ∧ y = .ok () := by
    intro x y
    cases x with
    | ok u => simp [bind, Except.bind]
    | error e => simp [bind, Except.bind]
  have htimeout : ∀ (key : String) (timeout : Option UInt64),
      checkTimeout key timeout = .ok () ↔ timeout ≠ some 0 := by
    intro key timeout
    unfold checkTimeout
    split <;> simp_all
  unfold validate
  rw [hbind, hbind, hbind, hbind, htimeout, htimeout]

theorem checkProgram_override (h : c.checkProgram = .ok ()) : (c.override env).checkProgram = .ok () := by
  unfold checkProgram at h ⊢
  rcases overridden_program c env with ⟨text, -, hprogram, x, hx, hblank⟩ | ⟨-, hprogram⟩
  · rw [hprogram]
    have hnot : isBlankText text = false := by
      rw [isBlankText, List.all_eq_false]
      exact ⟨x, hx, by simp [hblank]⟩
    simp [hnot]
  · rw [hprogram]
    exact h

theorem checkPrefixes_override (h : c.checkPrefixes = .ok ()) :
    (c.override env).checkPrefixes = .ok () := by
  have hfree : "" ∉ c.policy.remote ++ c.policy.platform := by
    unfold checkPrefixes at h
    split at h
    · cases h
    · assumption
  rw [List.mem_append, not_or] at hfree
  unfold checkPrefixes
  rw [if_neg]
  rw [List.mem_append, not_or]
  refine ⟨?_, hfree.2⟩
  rcases overridden_remote c env with ⟨text, -, hremote, -⟩ | ⟨-, hremote⟩
  · rw [hremote, ← parseList_eq, parseList]
    simp
  · rw [hremote]
    exact hfree.1

theorem timeout_override {name : String} {old : Option UInt64} (h : old ≠ some 0) :
    (countFrom env name).or old ≠ some 0 ↔
      ∀ text, env.lookup name = some text → ¬ Denotes text 0 := by
  have hzero : (countFrom env name).or old = some 0 ↔ countFrom env name = some 0 := by
    cases countFrom env name with
    | none => simpa using h
    | some n => rfl
  rw [ne_eq, hzero, countFrom_iff]
  simp

/-! ## The override -/

/-- What the environment does to a configuration. -/
structure Confined (env : Environment) (c c' : Config) : Prop where
  program : Overridden GivesProgram env "SUMMON_BACKEND" c.program c'.program
  root : Overridden GivesPath env "SUMMON_SOURCE_ROOT" c.sources.root c'.sources.root
  remote : Overridden GivesRemote env "SUMMON_REMOTE_PREFIXES" c.policy.remote c'.policy.remote
  fetchTimeout : Overridden GivesCount env "SUMMON_FETCH_TIMEOUT_MS" c.fetchTimeout c'.fetchTimeout
  compileTimeout :
    Overridden GivesCount env "SUMMON_COMPILE_TIMEOUT_MS" c.compileTimeout c'.compileTimeout
  failureTtl : Overridden GivesCount env "SUMMON_FAILURE_TTL_SECS" c.failureTtl c'.failureTtl
  artifacts : Overridden GivesPath env "SUMMON_STORE_DIR" c.artifacts c'.artifacts
  /-- No other setting changes. -/
  others : c' = { c with
    program := c'.program
    sources := { c.sources with root := c'.sources.root }
    policy := { c.policy with remote := c'.policy.remote }
    fetchTimeout := c'.fetchTimeout
    compileTimeout := c'.compileTimeout
    failureTtl := c'.failureTtl
    artifacts := c'.artifacts }

theorem confined_override (c : Config) (env : Environment) : Confined env c (c.override env) where
  program := overridden_program c env
  root := overridden_path env _ _
  remote := overridden_remote c env
  fetchTimeout := overridden_count env _ _
  compileTimeout := overridden_count env _ _
  failureTtl := overridden_count env _ _
  artifacts := overridden_path env _ _
  others := rfl

theorem override_override (c : Config) (env : Environment) :
    (c.override env).override env = c.override env := by
  have hor : ∀ {α : Type} (x y : Option α), x.or (x.or y) = x.or y := by
    intro α x y
    cases x <;> rfl
  have hgetD : ∀ {α : Type} (x : Option α) (y : α), x.getD (x.getD y) = x.getD y := by
    intro α x y
    cases x <;> rfl
  simp only [override, hor, hgetD]

/-- The environment changes the settings whose variables say something, to what they say, and no
others. Applied twice it is as applied once, and a valid configuration stays valid exactly if no variable
of a timeout says zero. -/
theorem override_spec (c : Config) (env : Environment) :
    Confined env c (c.override env) ∧ (c.override env).override env = c.override env ∧
      (c.validate = .ok () → ((c.override env).validate = .ok () ↔
        ∀ name ∈ ["SUMMON_FETCH_TIMEOUT_MS", "SUMMON_COMPILE_TIMEOUT_MS"], ∀ text,
          env.lookup name = some text → ¬ Denotes text 0)) := by
  refine ⟨confined_override c env, override_override c env, fun h => ?_⟩
  obtain ⟨hseparator, hprogram, hfetch, hcompile, hprefixes⟩ := validate_eq_ok.mp h
  rw [validate_eq_ok, List.forall_mem_cons, List.forall_mem_singleton, ← timeout_override hfetch,
    ← timeout_override hcompile]
  constructor
  · rintro ⟨-, -, hfetch, hcompile, -⟩
    exact ⟨hfetch, hcompile⟩
  · rintro ⟨hfetch, hcompile⟩
    exact ⟨hseparator, checkProgram_override hprogram, hfetch, hcompile, checkPrefixes_override hprefixes⟩

/-- A blank program, a list with one prefix, a count with a plus, and one that is too large. -/
def mixed : Environment :=
  [("SUMMON_BACKEND", " \t"), ("SUMMON_REMOTE_PREFIXES", " , remote/ ,"),
    ("SUMMON_FETCH_TIMEOUT_MS", " +250"), ("SUMMON_COMPILE_TIMEOUT_MS", "18446744073709551616")]

theorem override_spec_mixed : initial.validate = .ok () ∧ (initial.override mixed).validate = .ok () ∧
    (initial.override mixed).policy.remote = ["remote/"] ∧
    (initial.override mixed).fetchTimeout = some 250 ∧
    (initial.override mixed).compileTimeout = none := by
  have hvalid : initial.validate = .ok () := by decide +kernel
  refine ⟨hvalid, ((override_spec initial mixed).2.2 hvalid).mpr ?_, by decide +kernel,
    by decide +kernel, by decide +kernel⟩
  rw [List.forall_mem_cons, List.forall_mem_singleton]
  constructor
  · rintro text htext
    obtain rfl : " +250" = text := Option.some.inj htext
    rw [← parseCount_iff]
    decide +kernel
  · rintro text htext
    obtain rfl : "18446744073709551616" = text := Option.some.inj htext
    rw [← parseCount_iff]
    decide +kernel

end Config

end OnDemand
