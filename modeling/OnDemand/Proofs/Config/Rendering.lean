import OnDemand.Config.Reader
import OnDemand.Config.Writer
import OnDemand.Proofs.Config.Acceptance

/-!
# The configuration written and read

Every setting that has a value is written, and what is missing reads as without a value, so the document
of a configuration is read as that configuration and holds no key that means nothing
(`parse_write`). A count is written as an integer of TOML, and that is the only thing that can go
wrong: there is a document exactly if all counts are below `2 ^ 63` (`toToml_of_writable`,
`toToml_of_not_writable`).
-/

namespace OnDemand.Config

variable {settings : List (String × Shown)} {key : String} {c : Config}

/-! ## Settings -/

namespace Shown

def written? : Shown → Option Toml.Setting
  | string s => some (.string s)
  | strings ss => some (.strings ss)
  | count n => some (.integer n.toNat)
  | boolean b => some (.boolean b)
  | unset => none

def Fits : Shown → Prop
  | count n => n.toNat < 1 <<< 63
  | _ => True

theorem Fits.of_written? : ∀ {v : Shown} {s : Toml.Setting}, v.Fits → v.written? = some s → s.Fits
  | string _, _, _, rfl => trivial
  | strings _, _, _, rfl => trivial
  | boolean _, _, _, rfl => trivial
  | count n, _, h, rfl => by
    have hn : n.toNat < 1 <<< 63 := h
    show Toml.minInteger ≤ (n.toNat : Int) ∧ (n.toNat : Int) ≤ Toml.maxInteger
    unfold Toml.minInteger Toml.maxInteger
    simp only [Int.ofNat_eq_natCast]
    omega

@[simp] theorem fits_string (s : String) : (string s).Fits := trivial

@[simp] theorem fits_strings (ss : List String) : (strings ss).Fits := trivial

@[simp] theorem fits_boolean (b : Bool) : (boolean b).Fits := trivial

@[simp] theorem fits_ofText? : ∀ x : Option String, (ofText? x).Fits
  | none => trivial
  | some _ => trivial

@[simp] theorem fits_ofCount? : ∀ {x : Option UInt64}, (ofCount? x).Fits ↔ ∀ n ∈ x, n.toNat < 1 <<< 63
  | none => by simp [ofCount?, Fits]
  | some n => by simp [ofCount?, Fits]

end Shown

def writtenOf (settings : List (String × Shown)) : List (String × Toml.Setting) :=
  settings.filterMap fun f => f.2.written?.map (f.1, ·)

theorem writtenSettings_of_fits : ∀ {settings : List (String × Shown)}, (∀ f ∈ settings, f.2.Fits) →
    writtenSettings settings = .ok (writtenOf settings)
  | [], _ => rfl
  | (key, v) :: more, h => by
    obtain ⟨hv, hmore⟩ := List.forall_mem_cons.mp h
    have ih := writtenSettings_of_fits hmore
    unfold writtenSettings
    cases v with
    | count n =>
      simp only [if_pos (show n.toNat < 1 <<< 63 from hv), ih]
      rfl
    | unset => exact ih
    | _ =>
      simp only [ih]
      rfl

theorem writtenSettings_of_not_fits : ∀ {settings : List (String × Shown)},
    (¬ ∀ f ∈ settings, f.2.Fits) → ∃ e, writtenSettings settings = .error e
  | [], h => absurd (fun _ hf => by cases hf) h
  | (key, v) :: more, h => by
    have hput : (¬ ∀ f ∈ more, f.2.Fits) →
        ∀ s : Toml.Setting, ∃ e, (writtenSettings more).map ((key, s) :: ·) = .error e := by
      intro hmore s
      obtain ⟨e, he⟩ := writtenSettings_of_not_fits hmore
      exact ⟨e, by rw [he]; rfl⟩
    rw [List.forall_mem_cons, Classical.not_and_iff_not_or_not] at h
    unfold writtenSettings
    cases v with
    | count n =>
      by_cases hn : n.toNat < 1 <<< 63
      · simp only [if_pos hn]
        exact hput (h.resolve_left fun hc => hc hn) _
      · exact ⟨⟨n⟩, if_neg hn⟩
    | unset => exact writtenSettings_of_not_fits (h.resolve_left fun hc => hc trivial)
    | _ => exact hput (h.resolve_left fun hc => hc trivial) _

theorem keys_writtenOf : ∀ settings : List (String × Shown),
    ((writtenOf settings).map Prod.fst).Sublist (settings.map Prod.fst)
  | [] => List.Sublist.refl []
  | (key, v) :: more => by
    have ih := keys_writtenOf more
    unfold writtenOf at ih ⊢
    cases v with
    | unset => exact ih.cons key
    | _ => exact ih.cons_cons key

/-! ## Sections -/

/-- A configuration whose counts are integers of TOML. -/
def Writable (c : Config) : Prop :=
  ∀ x ∈ [c.fetchTimeout, c.compileTimeout, c.failureTtl], ∀ n ∈ x, n.toNat < 1 <<< 63

theorem writable_iff : c.Writable ↔ ∀ s ∈ c.shown, ∀ f ∈ s.2, f.2.Fits := by
  simp only [Writable, shown, List.forall_mem_cons, Shown.fits_string, Shown.fits_strings,
    Shown.fits_boolean, Shown.fits_ofText?, Shown.fits_ofCount?, List.not_mem_nil, false_imp_iff,
    implies_true, and_true, true_and, and_assoc]

def sections (c : Config) : List Toml.Section :=
  c.shown.map fun s => ⟨s.1, writtenOf s.2⟩

theorem mapM_eq_ok {α β ε : Type} {f : α → Except ε β} {g : α → β} : ∀ {xs : List α},
    (∀ x ∈ xs, f x = .ok (g x)) → xs.mapM f = .ok (xs.map g)
  | [], _ => rfl
  | x :: xs, h => by
    obtain ⟨hx, hxs⟩ := List.forall_mem_cons.mp h
    rw [List.mapM_cons, hx, mapM_eq_ok hxs]
    rfl

theorem mapM_eq_error {α β ε : Type} {f : α → Except ε β} {x : α} : ∀ {xs : List α}, x ∈ xs →
    (∃ e, f x = .error e) → ∃ e, xs.mapM f = .error e
  | y :: ys, hx, he => by
    rw [List.mapM_cons]
    cases hy : f y with
    | error e => exact ⟨e, rfl⟩
    | ok z =>
      rcases List.mem_cons.mp hx with rfl | hx
      · obtain ⟨e, he⟩ := he
        rw [hy] at he
        cases he
      · obtain ⟨e, he⟩ := mapM_eq_error hx he
        exact ⟨e, by rw [he]; rfl⟩

theorem toToml_of_writable (h : c.Writable) : c.toToml = .ok (Toml.write c.sections) := by
  have hsection : ∀ s ∈ c.shown, (do return (⟨s.1, ← writtenSettings s.2⟩ : Toml.Section)) =
      (.ok ⟨s.1, writtenOf s.2⟩ : Except TooLarge Toml.Section) := by
    intro s hs
    rw [writtenSettings_of_fits (writable_iff.mp h s hs)]
    rfl
  unfold toToml
  rw [mapM_eq_ok hsection]
  rfl

theorem toToml_of_not_writable (h : ¬ c.Writable) : ∃ e, c.toToml = .error e := by
  rw [writable_iff, Classical.not_forall] at h
  obtain ⟨s, hs⟩ := h
  obtain ⟨hmem, hfits⟩ := Classical.not_imp.mp hs
  obtain ⟨e, he⟩ := writtenSettings_of_not_fits hfits
  obtain ⟨e, hmap⟩ := mapM_eq_error
    (f := fun s => (do return ⟨s.1, ← writtenSettings s.2⟩ : Except TooLarge Toml.Section))
    hmem ⟨e, by rw [he]; rfl⟩
  unfold toToml
  rw [hmap]
  exact ⟨e, rfl⟩

/-! ## The document -/

theorem keys_shown (c : Config) : c.shown.map (fun s => (s.1, s.2.map Prod.fst)) = layout := rfl

theorem mem_layout {s : String × List (String × Shown)} (h : s ∈ c.shown) :
    (s.1, s.2.map Prod.fst) ∈ layout := by
  rw [← keys_shown c]
  exact List.mem_map_of_mem h

theorem plain_sections (h : c.Writable) : ∀ s ∈ c.sections, s.Plain := by
  rintro _ hsection
  obtain ⟨s, hs, rfl⟩ := List.mem_map.mp hsection
  obtain ⟨hname, hkeys, hdistinct, -⟩ := layout_plain _ (mem_layout hs)
  have hsub := keys_writtenOf s.2
  refine ⟨hname, fun f hf => ?_, fun f hf => ?_, hdistinct.sublist hsub⟩
  · exact hkeys _ (hsub.subset (List.mem_map_of_mem hf))
  · obtain ⟨g, hg, hf⟩ := List.mem_filterMap.mp hf
    obtain ⟨x, hx, rfl⟩ := Option.map_eq_some_iff.mp hf
    exact (writable_iff.mp h s hs g hg).of_written? hx

theorem names_sections (c : Config) : (c.sections.map Toml.Section.name).Nodup := by
  have hnames : c.sections.map Toml.Section.name = layout.map Prod.fst := rfl
  rw [hnames]
  decide +kernel

def document (c : Config) : Toml.Fields :=
  c.sections.map Toml.Section.table

theorem read_document (h : c.Writable) : Toml.read (Toml.write c.sections) = some c.document :=
  Toml.read_write (plain_sections h) (names_sections c)

theorem unknownKeys_document (c : Config) : unknownKeys c.document = [] := by
  refine List.flatMap_eq_nil_iff.mpr fun f hf => ?_
  obtain ⟨_, hsection, rfl⟩ := List.mem_map.mp hf
  obtain ⟨s, hs, rfl⟩ := List.mem_map.mp hsection
  obtain ⟨-, -, -, hlookup⟩ := layout_plain _ (mem_layout hs)
  have hkeys : ∀ key ∈ (writtenOf s.2).map Prod.fst, key ∈ s.2.map Prod.fst :=
    fun key hkey => (keys_writtenOf s.2).subset hkey
  have hfields : (Toml.Section.fields ⟨s.1, writtenOf s.2⟩).map Prod.fst =
      (writtenOf s.2).map Prod.fst := by
    simp [Toml.Section.fields]
  simp only [Toml.Section.table, hlookup, sectionFields, Option.getD_some, hfields]
  rw [List.filter_eq_nil_iff.mpr]
  · rfl
  · intro key hkey
    simpa using hkeys key hkey

/-! ## Reading the document -/

def Shown.value? (v : Shown) : Option Toml.Value :=
  v.written?.map Toml.Setting.value

def fieldsOf (settings : List (String × Shown)) : Toml.Fields :=
  (writtenOf settings).map fun f => (f.1, f.2.value)

theorem fieldsOf_cons (key : String) (v : Shown) (more : List (String × Shown)) :
    fieldsOf ((key, v) :: more) = (v.value?.map (key, ·)).toList ++ fieldsOf more := by
  cases v <;> rfl

theorem lookup_fieldsOf (key : String) : ∀ {settings : List (String × Shown)},
    (settings.map Prod.fst).Nodup →
    (fieldsOf settings).lookup key = (settings.lookup key).bind Shown.value?
  | [], _ => rfl
  | (k, v) :: more, h => by
    obtain ⟨hk, hmore⟩ := List.nodup_cons.mp h
    have ih := lookup_fieldsOf key hmore
    rw [fieldsOf_cons, List.lookup_append, ih]
    by_cases hkey : key = k
    · subst hkey
      rw [Toml.lookup_eq_none hk, List.lookup_cons_self]
      cases hv : v.value? <;> simp [hv]
    · rw [List.lookup_cons, beq_eq_false_iff_ne.mpr hkey]
      cases v.value? <;> simp [List.lookup_cons, beq_eq_false_iff_ne.mpr hkey]

theorem lookup_tables (name : String) : ∀ ss : List (String × List (String × Shown)),
    (ss.map fun s => (s.1, Toml.Value.table .header (fieldsOf s.2))).lookup name =
      (ss.lookup name).map fun settings => .table .header (fieldsOf settings)
  | [] => rfl
  | s :: ss => by
    by_cases hname : name = s.1
    · subst hname
      rw [List.map_cons, List.lookup_cons_self, List.lookup_cons_self]
      rfl
    · rw [List.map_cons, List.lookup_cons, List.lookup_cons, beq_eq_false_iff_ne.mpr hname]
      exact lookup_tables name ss

def settingsIn (c : Config) (name : String) : List (String × Shown) :=
  (c.shown.lookup name).getD []

theorem sectionOf_document (c : Config) (name : String) :
    sectionOf c.document name = some (fieldsOf (c.settingsIn name)) := by
  have hdocument : c.document =
      c.shown.map fun s => (s.1, Toml.Value.table .header (fieldsOf s.2)) := by
    simp [document, sections, Toml.Section.table, Toml.Section.fields, fieldsOf]
  unfold sectionOf settingsIn
  rw [hdocument, lookup_tables]
  cases c.shown.lookup name <;> rfl

theorem distinct_settingsIn (c : Config) (name : String) :
    ((c.settingsIn name).map Prod.fst).Nodup := by
  unfold settingsIn
  cases h : c.shown.lookup name with
  | none => exact List.nodup_nil
  | some settings =>
    obtain ⟨before, after, hshown, -⟩ := List.lookup_eq_some_iff.mp h
    have hmem : (name, settings) ∈ c.shown := by simp [hshown]
    exact (layout_plain _ (mem_layout hmem)).2.2.1

/-! ## Settings read back -/

section
variable {name : String}

theorem setting_document {α : Type} {read : Toml.Value → Option α} {missing a : α} {v : Shown}
    (h : (c.settingsIn name).lookup key = some v)
    (hread : (match v.value? with | none => some missing | some x => read x) = some a) :
    setting (fieldsOf (c.settingsIn name)) key read missing = some a := by
  unfold setting
  rw [lookup_fieldsOf key (distinct_settingsIn c name), h, Option.bind_some]
  exact hread

theorem setting_text {s : String} (h : (c.settingsIn name).lookup key = some (.string s))
    (missing : String) : setting (fieldsOf (c.settingsIn name)) key text? missing = some s :=
  setting_document h rfl

theorem setting_char {x : Char} (h : (c.settingsIn name).lookup key = some (.string (String.ofList [x])))
    (missing : Char) : setting (fieldsOf (c.settingsIn name)) key char? missing = some x := by
  refine setting_document h ?_
  show char? (.string (String.ofList [x])) = some x
  simp only [char?, String.toList_ofList]

theorem setting_flag {b : Bool} (h : (c.settingsIn name).lookup key = some (.boolean b))
    (missing : Bool) : setting (fieldsOf (c.settingsIn name)) key flag? missing = some b :=
  setting_document h rfl

theorem mapM_text? : ∀ ss : List String, (ss.map Toml.Value.string).mapM text? = some ss
  | [] => rfl
  | s :: ss => by
    rw [List.map_cons, List.mapM_cons, mapM_text? ss]
    rfl

theorem setting_texts {ss : List String} (h : (c.settingsIn name).lookup key = some (.strings ss))
    (missing : List String) :
    setting (fieldsOf (c.settingsIn name)) key texts? missing = some ss :=
  setting_document h (mapM_text? ss)

theorem optionalSetting_text : ∀ {x : Option String},
    (c.settingsIn name).lookup key = some (.ofText? x) →
    optionalSetting (fieldsOf (c.settingsIn name)) key text? = some x
  | none, h => setting_document h rfl
  | some _, h => setting_document h rfl

theorem optionalSetting_count : ∀ {x : Option UInt64},
    (c.settingsIn name).lookup key = some (.ofCount? x) →
    optionalSetting (fieldsOf (c.settingsIn name)) key count? = some x
  | none, h => setting_document h rfl
  | some n, h => by
    refine setting_document h ?_
    have hn : (n.toNat : Int) < Int.ofNat (1 <<< 64) := by
      have := n.toNat_lt
      simp only [Int.ofNat_eq_natCast]
      omega
    have hcount : count? (.integer n.toNat) = some n := by
      simp only [count?, if_pos (And.intro (Int.natCast_nonneg _) hn), Int.toNat_natCast,
        UInt64.ofNat_toNat]
    exact congrArg (Option.map some) hcount

end

theorem readPolicy_document (c : Config) :
    readPolicy (fieldsOf (c.settingsIn "namespace")) = some c.policy := by
  unfold readPolicy
  refine Option.bind_eq_some_iff.mpr ⟨_, setting_texts rfl _, ?_⟩
  exact Option.bind_eq_some_iff.mpr ⟨_, setting_texts rfl _, rfl⟩

theorem readSources_document (c : Config) :
    readSources (fieldsOf (c.settingsIn "source")) = some c.sources := by
  unfold readSources
  refine Option.bind_eq_some_iff.mpr ⟨_, setting_text rfl _, ?_⟩
  refine Option.bind_eq_some_iff.mpr ⟨_, setting_text rfl _, ?_⟩
  exact Option.bind_eq_some_iff.mpr ⟨_, optionalSetting_text rfl, rfl⟩

theorem readForm_document (c : Config) :
    readForm (fieldsOf (c.settingsIn "backend")) = some c.form := by
  unfold readForm
  refine Option.bind_eq_some_iff.mpr ⟨_, setting_texts rfl _, ?_⟩
  refine Option.bind_eq_some_iff.mpr ⟨_, setting_text rfl _, ?_⟩
  refine Option.bind_eq_some_iff.mpr ⟨_, setting_text rfl _, ?_⟩
  refine Option.bind_eq_some_iff.mpr ⟨_, optionalSetting_text rfl, ?_⟩
  refine Option.bind_eq_some_iff.mpr ⟨_, setting_text rfl _, ?_⟩
  refine Option.bind_eq_some_iff.mpr ⟨_, setting_text rfl _, ?_⟩
  refine Option.bind_eq_some_iff.mpr ⟨_, setting_char rfl _, ?_⟩
  exact Option.bind_eq_some_iff.mpr ⟨_, setting_flag rfl _, rfl⟩

theorem ofDocument_document (c : Config) : ofDocument c.document = some c := by
  unfold ofDocument
  simp only [sectionOf_document]
  refine Option.bind_eq_some_iff.mpr ⟨_, rfl, ?_⟩
  refine Option.bind_eq_some_iff.mpr ⟨_, rfl, ?_⟩
  refine Option.bind_eq_some_iff.mpr ⟨_, rfl, ?_⟩
  refine Option.bind_eq_some_iff.mpr ⟨_, readPolicy_document c, ?_⟩
  refine Option.bind_eq_some_iff.mpr ⟨_, rfl, ?_⟩
  refine Option.bind_eq_some_iff.mpr ⟨_, readSources_document c, ?_⟩
  refine Option.bind_eq_some_iff.mpr ⟨_, optionalSetting_text rfl, ?_⟩
  refine Option.bind_eq_some_iff.mpr ⟨_, readForm_document c, ?_⟩
  refine Option.bind_eq_some_iff.mpr ⟨_, optionalSetting_count rfl, ?_⟩
  refine Option.bind_eq_some_iff.mpr ⟨_, optionalSetting_count rfl, ?_⟩
  refine Option.bind_eq_some_iff.mpr ⟨_, rfl, ?_⟩
  refine Option.bind_eq_some_iff.mpr ⟨_, optionalSetting_count rfl, ?_⟩
  refine Option.bind_eq_some_iff.mpr ⟨_, rfl, ?_⟩
  refine Option.bind_eq_some_iff.mpr ⟨_, setting_texts rfl _, ?_⟩
  refine Option.bind_eq_some_iff.mpr ⟨_, rfl, ?_⟩
  exact Option.bind_eq_some_iff.mpr ⟨_, setting_text rfl _, rfl⟩

/-- A configuration that was written is read back, and nothing is warned about. -/
theorem parse_write (h : c.Writable) (file : Path) :
    parse file (Toml.write c.sections) = .ok (c, []) := by
  unfold parse
  simp only [read_document h, ofDocument_document, unknownKeys_document, List.map_nil]

end OnDemand.Config
