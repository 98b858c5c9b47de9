import Mathlib
import OnDemand.Proofs.Config.Acceptance
import OnDemand.Proofs.Toml.Marks

/-!
# Unknown keys

A document that is accepted stays the same configuration when the keys that mean nothing are taken out
of it, and the outermost of them are counted by the warnings: all but those inside a section that is
written as an array, and with one warning too many for each section that is a date
(`unknown_keys_iff`).
-/

namespace OnDemand.Config

open Toml

variable {doc doc' fs fs' : Fields} {name key : String} {settings : List String} {v : Value}
  {T : List String → Prop}

/-! ## Taking keys out -/

def keptSettings (settings : List String) (fs : Fields) : Fields :=
  (fs.filter (·.1 ∈ settings)).map fun f => (f.1, f.2.stripped)

def prunedSection (settings : List String) : Value → Value
  | .table form fs => .table form (keptSettings settings fs)
  | v => v.stripped

/-- What is left of a document without the keys that mean nothing. -/
def pruned (doc : Fields) : Fields :=
  doc.filterMap fun f => (layout.lookup f.1).map fun settings => (f.1, prunedSection settings f.2)

/-- What is in a section, in whatever form its table is written; one without keys is as good as
none. -/
def sectionContent : Value → Option Value
  | .table _ [] => none
  | .table _ fs => some (.table .header fs)
  | v => some v

/-- What a document has in a section. -/
def content (doc : Fields) (name : String) : Option Value :=
  (doc.lookup name).bind sectionContent

/-- The second document has what is left of the first without the keys that mean nothing. -/
structure Removed (doc doc' : Fields) : Prop where
  known : ∀ f ∈ doc', (layout.lookup f.1).isSome = true
  content : ∀ name, content doc' name = content (pruned doc) name

/-- How many outermost keys of a section mean nothing, or the section itself. -/
def outermost (f : String × Value) : Nat :=
  match layout.lookup f.1 with
  | none => 1
  | some settings =>
    match f.2 with
    | .table _ fs => (fs.map fun g => if g.1 ∈ settings then g.2.keyCount else 1).sum
    | v => v.keyCount

/-- How many outermost keys are in a section that is an array. -/
def hidden (f : String × Value) : Nat :=
  match layout.lookup f.1, f.2 with
  | some _, .array vs => Value.keyCountAll vs
  | _, _ => 0

def isDate (f : String × Value) : Bool :=
  match layout.lookup f.1, f.2 with
  | some _, .moment => true
  | _, _ => false

/-! ## Lookups -/

theorem lookup_map_snd (g : Value → Value) : ∀ fs : Fields,
    (fs.map fun f => (f.1, g f.2)).lookup key = (fs.lookup key).map g
  | [] => rfl
  | f :: fs => by
    rw [List.map_cons, List.lookup_cons, List.lookup_cons, lookup_map_snd g fs]
    cases key == f.1 <;> rfl

theorem lookup_filter_fst (p : String → Bool) (hkey : p key = true) : ∀ fs : Fields,
    (fs.filter fun f => p f.1).lookup key = fs.lookup key
  | [] => rfl
  | f :: fs => by
    have ih := lookup_filter_fst p hkey fs
    rw [List.lookup_cons, List.filter_cons]
    by_cases he : key = f.1
    · subst he
      rw [if_pos hkey, List.lookup_cons]
      simp
    · have hne : (key == f.1) = false := by simpa using he
      split
      · rw [List.lookup_cons, ih, hne]
      · rw [ih, hne]

theorem lookup_keptSettings (hkey : key ∈ settings) (fs : Fields) :
    (keptSettings settings fs).lookup key = (fs.lookup key).map Value.stripped := by
  unfold keptSettings
  rw [lookup_map_snd, lookup_filter_fst (fun k => k ∈ settings) (by simpa using hkey)]

theorem lookup_pruned : ∀ doc : Fields, (pruned doc).lookup name =
    (layout.lookup name).bind fun settings => (doc.lookup name).map (prunedSection settings)
  | [] => by cases layout.lookup name <;> rfl
  | f :: doc => by
    have ih := lookup_pruned doc
    unfold pruned at ih ⊢
    rw [List.filterMap_cons, List.lookup_cons]
    by_cases he : name = f.1
    · subst he
      cases hname : layout.lookup f.1 with
      | none => simpa [hname] using ih
      | some settings => simp
    · have hne : (name == f.1) = false := by simpa using he
      rw [hne, ← ih]
      cases layout.lookup f.1 with
      | none => rfl
      | some settings =>
        simp only [Option.map_some]
        rw [List.lookup_cons, hne]

theorem lookup_zip_map (g : Value → Value) (vs : List Value) :
    (settings.zip (vs.map g)).lookup key = ((settings.zip vs).lookup key).map g := by
  rw [List.zip_map_right, ← lookup_map_snd]
  rfl

theorem sectionOf_eq (doc : Fields) (name : String) : sectionOf doc name =
    match content doc name with
    | none => some []
    | some v => sectionFields (settingsOf name) v := by
  unfold sectionOf content
  cases doc.lookup name with
  | none => rfl
  | some v =>
    cases v with
    | table form fs => cases fs <;> rfl
    | _ => rfl

/-! ## The same settings -/

theorem IsSetting.stripped (h : IsSetting v) : v.stripped = v := by
  obtain ⟨s, rfl⟩ := h
  cases s with
  | strings ss =>
    show Value.array (Value.strippedAll (ss.map Value.string)) = _
    rw [Value.strippedAll_eq_map, List.map_map]
    rfl
  | _ => rfl

theorem keyCountAll_map_string : ∀ ss : List String, Value.keyCountAll (ss.map Value.string) = 0
  | [] => rfl
  | s :: ss => by
    rw [List.map_cons, Value.keyCountAll, keyCountAll_map_string ss]
    rfl

theorem IsSetting.keyCount (h : IsSetting v) : v.keyCount = 0 := by
  obtain ⟨s, rfl⟩ := h
  cases s with
  | strings ss => exact keyCountAll_map_string ss
  | _ => rfl

theorem not_isSetting_table (form : Form) (fs : Fields) : ¬ IsSetting (.table form fs) := by
  rintro ⟨s, hs⟩
  cases s <;> cases hs

theorem Settings.map_stripped (h : Settings settings fs) (hkey : key ∈ settings) :
    (fs.lookup key).map Value.stripped = fs.lookup key := by
  cases hv : fs.lookup key with
  | none => rfl
  | some v => rw [Option.map_some, (h key hkey v hv).stripped]

theorem tables_of_settings {elements : List Fields} (hne : settings ≠ [])
    (h : Settings settings (settings.zip (elements.map (.table .header)))) : elements = [] := by
  obtain ⟨key, keys, rfl⟩ := List.exists_cons_of_ne_nil hne
  cases elements with
  | nil => rfl
  | cons e es =>
    refine absurd (h key List.mem_cons_self (.table .header e) ?_) (not_isSetting_table _ _)
    simp

theorem settings_ne_nil : ∀ s ∈ layout, s.2 ≠ [] := by
  decide

theorem sectionAgrees_pruned {s : String × List String} (hs : s ∈ layout)
    (h : SectionAccepted doc s.1 s.2) : SectionAgrees doc (pruned doc) s.1 s.2 := by
  obtain ⟨-, -, -, hlayout⟩ := layout_plain s hs
  have hsettings := settingsOf_of_lookup hlayout
  have hpruned : (pruned doc).lookup s.1 = (doc.lookup s.1).map (prunedSection s.2) := by
    rw [lookup_pruned, hlayout, Option.bind_some]
  obtain ⟨fs, hfs, haccepted⟩ := h
  unfold SectionAgrees
  unfold sectionOf at hfs ⊢
  rw [hpruned]
  rw [hsettings] at hfs ⊢
  cases hv : doc.lookup s.1 with
  | none => exact ⟨[], [], rfl, rfl, fun _ _ => rfl⟩
  | some v =>
    rw [hv] at hfs
    cases v with
    | table form gs =>
      cases hfs
      refine ⟨fs, keptSettings s.2 fs, rfl, rfl, fun key hkey => ?_⟩
      rw [lookup_keptSettings hkey, haccepted.map_stripped hkey]
    | array vs =>
      -- the items of an array are its settings, in order
      cases hfs
      refine ⟨_, s.2.zip (vs.map Value.stripped), rfl, ?_, fun key hkey => ?_⟩
      · rw [← Value.strippedAll_eq_map]
        rfl
      · rw [lookup_zip_map, haccepted.map_stripped hkey]
    | tables elements =>
      cases hfs
      obtain rfl := tables_of_settings (settings_ne_nil s hs) haccepted
      exact ⟨_, _, rfl, rfl, fun _ _ => rfl⟩
    | moment =>
      cases hfs
      exact ⟨_, _, rfl, rfl, fun _ _ => rfl⟩
    | string s => cases hfs
    | integer n => cases hfs
    | float => cases hfs
    | boolean b => cases hfs

theorem ofDocument_of_removed {c : Config} (h : ofDocument doc = some c) (hremoved : Removed doc doc') :
    ofDocument doc' = some c := by
  have haccepted := accepts_of_ofDocument h
  rw [← h]
  refine ofDocument_congr fun s hs => ?_
  obtain ⟨fs, fs', hfs, hfs', hagree⟩ := sectionAgrees_pruned hs (haccepted s hs)
  refine ⟨fs, fs', hfs, ?_, hagree⟩
  rw [sectionOf_eq] at hfs' ⊢
  rw [hremoved.content]
  exact hfs'

/-! ## Counting -/

def warned (f : String × Value) : Nat :=
  match layout.lookup f.1 with
  | none => 1
  | some settings =>
    ((((sectionFields settings f.2).getD []).map Prod.fst).filter (· ∉ settings)).length

theorem length_unknownKeys (doc : Fields) : (unknownKeys doc).length = (doc.map warned).sum := by
  unfold unknownKeys
  rw [List.length_flatMap]
  congr 2
  funext ⟨name, v⟩
  unfold warned
  cases h : layout.lookup name with
  | none => simp only [h, List.length_singleton]
  | some settings => simp only [h, List.length_map]

theorem filter_zip (vs : List Value) :
    ((settings.zip vs).map Prod.fst).filter (· ∉ settings) = [] := by
  refine List.filter_eq_nil_iff.mpr fun key hkey => ?_
  obtain ⟨f, hf, rfl⟩ := List.mem_map.mp hkey
  simpa using (List.of_mem_zip hf).1

theorem length_filter_eq_sum : ∀ {fs : Fields}, (∀ g ∈ fs, g.1 ∈ settings → g.2.keyCount = 0) →
    ((fs.map Prod.fst).filter (· ∉ settings)).length =
      (fs.map fun g => if g.1 ∈ settings then g.2.keyCount else 1).sum
  | [], _ => rfl
  | g :: fs, h => by
    obtain ⟨hg, hfs⟩ := List.forall_mem_cons.mp h
    have ih := length_filter_eq_sum hfs
    rw [List.map_cons, List.map_cons, List.sum_cons, List.filter_cons, ← ih]
    by_cases hkey : g.1 ∈ settings
    · simp [hkey, hg hkey]
    · simp [hkey, Nat.add_comm]

theorem momentKey_not_mem : ∀ s ∈ layout, momentKey ∉ s.2 := by
  decide +kernel

theorem accepted_of_mem (hsound : doc.Sound T) (h : ∀ s ∈ layout, SectionAccepted doc s.1 s.2)
    {f : String × Value} (hf : f ∈ doc) (hname : layout.lookup f.1 = some settings) :
    ∃ fs, sectionFields settings f.2 = some fs ∧ Settings settings fs := by
  obtain ⟨fs, hfs, haccepted⟩ := h _ (Fields.mem_of_lookup_eq_some hname)
  refine ⟨fs, ?_, haccepted⟩
  unfold sectionOf at hfs
  rw [Fields.lookup_of_mem hsound.distinct hf] at hfs
  simp only [settingsOf, hname, Option.getD_some] at hfs
  exact hfs

/-- The warnings about a section of an accepted document are the outermost keys that mean nothing, but
for those in an array and with one more for a date. -/
theorem warned_add_hidden (hsound : doc.Sound T) (h : ∀ s ∈ layout, SectionAccepted doc s.1 s.2)
    {f : String × Value} (hf : f ∈ doc) :
    warned f + hidden f = outermost f + if isDate f then 1 else 0 := by
  cases hname : layout.lookup f.1 with
  | none => simp [warned, hidden, outermost, isDate, hname]
  | some settings =>
    have hlayout := Fields.mem_of_lookup_eq_some hname
    obtain ⟨fs, hfs, haccepted⟩ := accepted_of_mem hsound h hf hname
    obtain ⟨name, v⟩ := f
    simp only [warned, hidden, outermost, isDate, hname]
    simp only at hfs
    -- by the form of the section; what is no section is not accepted
    cases v with
    | table form gs =>
      cases hfs
      have hgs := Fields.sound_of_table (hsound.values _ hf)
      have hcount : ∀ g ∈ fs, g.1 ∈ settings → g.2.keyCount = 0 := fun g hg hkey =>
        (haccepted g.1 hkey g.2 (Fields.lookup_of_mem hgs.distinct hg)).keyCount
      simpa [sectionFields] using length_filter_eq_sum hcount
    | array vs =>
      simp only [sectionFields, Option.getD_some, filter_zip, List.length_nil]
      simp [Value.keyCount]
    | tables elements =>
      cases hfs
      obtain rfl := tables_of_settings (settings_ne_nil _ hlayout) haccepted
      simp [sectionFields, Value.keyCount]
    | moment =>
      have := momentKey_not_mem _ hlayout
      simp [sectionFields, Value.keyCount, this]
    | string s => cases hfs
    | integer n => cases hfs
    | float => cases hfs
    | boolean b => cases hfs

theorem sum_add_countP {α : Type} {a b c : α → Nat} {p : α → Bool} : ∀ {l : List α},
    (∀ x ∈ l, a x + b x = c x + if p x then 1 else 0) →
    (l.map a).sum + (l.map b).sum = (l.map c).sum + l.countP p
  | [], _ => rfl
  | x :: l, h => by
    obtain ⟨hx, hl⟩ := List.forall_mem_cons.mp h
    have ih := sum_add_countP hl
    simp only [List.map_cons, List.sum_cons, List.countP_cons]
    omega

/-! ## What is left is told of by no warning -/

theorem content_eq_moment_iff : content doc name = some .moment ↔ doc.lookup name = some .moment := by
  unfold content
  cases doc.lookup name with
  | none => rfl
  | some v =>
    cases v with
    | table form fs => cases fs <;> simp [sectionContent]
    | _ => rfl

theorem exists_isDate_iff (hdistinct : (doc.map Prod.fst).Nodup) : (∃ f ∈ doc, isDate f = true) ↔
    ∃ name settings, layout.lookup name = some settings ∧ doc.lookup name = some .moment := by
  constructor
  · rintro ⟨⟨name, v⟩, hf, hdate⟩
    unfold isDate at hdate
    split at hdate
    · rename_i settings hname hv
      simp only at hname hv
      subst hv
      exact ⟨name, settings, hname, Fields.lookup_of_mem hdistinct hf⟩
    · cases hdate
  · rintro ⟨name, settings, hname, hlookup⟩
    refine ⟨_, Fields.mem_of_lookup_eq_some hlookup, ?_⟩
    simp [isDate, hname]

theorem exists_isDate_of_removed (hdistinct : (doc.map Prod.fst).Nodup)
    (hdistinct' : (doc'.map Prod.fst).Nodup) (h : Removed doc doc') :
    (∃ f ∈ doc', isDate f = true) ↔ ∃ f ∈ doc, isDate f = true := by
  rw [exists_isDate_iff hdistinct, exists_isDate_iff hdistinct']
  refine exists_congr fun name => exists_congr fun settings => and_congr_right fun hname => ?_
  rw [← content_eq_moment_iff, h.content, content_eq_moment_iff, lookup_pruned, hname, Option.bind_some]
  cases doc.lookup name with
  | none => simp
  | some v => cases v <;> simp [prunedSection, Value.stripped]

theorem lookup_of_content {form : Form} (h : content doc name = some (.table form fs)) :
    ∃ form', doc.lookup name = some (.table form' fs) := by
  obtain ⟨v, hlookup, hv⟩ := Option.bind_eq_some_iff.mp h
  rw [hlookup]
  cases v with
  | table form' gs =>
    cases gs with
    | nil => cases hv
    | cons g gs =>
      cases hv
      exact ⟨form', rfl⟩
  | _ => cases hv

theorem mem_of_mem_keptSettings {g : String × Value} (h : g ∈ keptSettings settings fs) :
    g.1 ∈ settings := by
  obtain ⟨f, hf, rfl⟩ := List.mem_map.mp h
  simpa using (List.mem_filter.mp hf).2

theorem mem_settings_of_removed {form : Form} (hdistinct' : (doc'.map Prod.fst).Nodup)
    (h : Removed doc doc') (hf : (name, .table form fs) ∈ doc')
    (hname : layout.lookup name = some settings) : ∀ g ∈ fs, g.1 ∈ settings := by
  cases fs with
  | nil => simp
  | cons g gs =>
    have hcontent : content doc' name = some (.table .header (g :: gs)) := by
      unfold content
      rw [Fields.lookup_of_mem hdistinct' hf]
      rfl
    rw [h.content] at hcontent
    obtain ⟨form', hpruned⟩ := lookup_of_content hcontent
    rw [lookup_pruned, hname, Option.bind_some] at hpruned
    obtain ⟨v, -, hv⟩ := Option.map_eq_some_iff.mp hpruned
    cases v with
    | table form'' fs =>
      rw [← (Value.table.inj hv).2]
      exact fun g hg => mem_of_mem_keptSettings hg
    | _ => cases hv

theorem warned_of_removed (hdistinct' : (doc'.map Prod.fst).Nodup) (h : Removed doc doc')
    {f : String × Value} (hf : f ∈ doc') : warned f = if isDate f then 1 else 0 := by
  obtain ⟨settings, hname⟩ := Option.isSome_iff_exists.mp (h.known f hf)
  obtain ⟨name, v⟩ := f
  simp only at hname
  simp only [warned, isDate, hname]
  cases v with
  | table form fs =>
    have hkeys := mem_settings_of_removed hdistinct' h hf hname
    rw [List.length_eq_zero_iff.mpr (List.filter_eq_nil_iff.mpr ?_)]
    · rfl
    · rintro key hkey
      obtain ⟨g, hg, rfl⟩ := List.mem_map.mp hkey
      simpa using hkeys g hg
  | array vs =>
    simp only [sectionFields, Option.getD_some, filter_zip]
    rfl
  | tables elements =>
    simp only [sectionFields, Option.getD_some, filter_zip]
    rfl
  | moment =>
    -- the key that a date is read as is no setting
    have := momentKey_not_mem _ (Fields.mem_of_lookup_eq_some hname)
    simp [sectionFields, this]
  | string s => rfl
  | integer n => rfl
  | float => rfl
  | boolean b => rfl

theorem length_unknownKeys_of_removed (hdistinct' : (doc'.map Prod.fst).Nodup)
    (h : Removed doc doc') : (unknownKeys doc').length = doc'.countP isDate := by
  rw [length_unknownKeys, List.map_congr_left fun f hf => warned_of_removed hdistinct' h hf]
  have := sum_add_countP (a := fun f => if isDate f then 1 else 0) (b := fun _ => 0) (c := fun _ => 0)
    (p := isDate) (l := doc') (by simp)
  simpa using this

theorem unknownKeys_of_removed (hdistinct : (doc.map Prod.fst).Nodup)
    (hdistinct' : (doc'.map Prod.fst).Nodup) (h : Removed doc doc') :
    unknownKeys doc' = [] ↔ doc.countP isDate = 0 := by
  have hdates := exists_isDate_of_removed hdistinct hdistinct' h
  rw [← List.length_eq_zero_iff, length_unknownKeys_of_removed hdistinct' h, List.countP_eq_zero,
    List.countP_eq_zero]
  constructor
  · intro hnone f hf hdate
    obtain ⟨g, hg, hgdate⟩ := hdates.mpr ⟨f, hf, hdate⟩
    exact hnone g hg hgdate
  · intro hnone f hf hdate
    obtain ⟨g, hg, hgdate⟩ := hdates.mp ⟨f, hf, hdate⟩
    exact hnone g hg hgdate

/-! ## What is left can be written -/

theorem fits_of_readable {s : Setting} (h : s.value.Readable) : s.Fits := by
  obtain ⟨n, cs, rest, -, hread⟩ := h
  cases s with
  | integer i => exact inRange_of_readValueWithin hread
  | _ => trivial

theorem isTable_of_isSetting (h : IsSetting v) : v.isTable = false := by
  obtain ⟨s, rfl⟩ := h
  cases s <;> rfl

theorem exists_settings : ∀ {fs : Fields}, (∀ f ∈ fs, IsSetting f.2 ∧ f.2.Readable) →
    ∃ ss : List (String × Setting), (ss.map fun f => (f.1, f.2.value)) = fs ∧ ∀ f ∈ ss, f.2.Fits
  | [], _ => ⟨[], rfl, by simp⟩
  | (key, v) :: fs, h => by
    obtain ⟨⟨⟨s, rfl⟩, hreadable⟩, hfs⟩ := List.forall_mem_cons.mp h
    obtain ⟨ss, rfl, hss⟩ := exists_settings hfs
    exact ⟨(key, s) :: ss, rfl, List.forall_mem_cons.mpr ⟨fits_of_readable hreadable, hss⟩⟩

theorem exists_section (hfs : fs.Sound T) (haccepted : Settings settings fs)
    (hlayout : (name, settings) ∈ layout) : ∃ s : Section, s.Plain ∧ s.name = name ∧
      s.fields = keptSettings settings fs := by
  obtain ⟨hbare, hkeys, -, -⟩ := layout_plain _ hlayout
  -- a setting that is kept is written as it was read
  have hvalues : ∀ f ∈ keptSettings settings fs, IsSetting f.2 ∧ f.2.Readable := by
    intro f hf
    obtain ⟨g, hg, rfl⟩ := List.mem_map.mp hf
    obtain ⟨hg, hkey⟩ := List.mem_filter.mp hg
    have hsetting := haccepted g.1 (by simpa using hkey) g.2 (Fields.lookup_of_mem hfs.distinct hg)
    simp only [hsetting.stripped]
    exact ⟨hsetting, (hfs.values g hg).readable (isTable_of_isSetting hsetting)⟩
  obtain ⟨ss, hss, hfits⟩ := exists_settings hvalues
  have hfst : ss.map Prod.fst = (keptSettings settings fs).map Prod.fst := by
    rw [← hss]
    simp
  refine ⟨⟨name, ss⟩, ⟨hbare, fun f hf => ?_, hfits, ?_⟩, rfl, hss⟩
  · have hmem : f.1 ∈ (keptSettings settings fs).map Prod.fst := hfst ▸ List.mem_map_of_mem hf
    obtain ⟨g, hg, hkey⟩ := List.mem_map.mp hmem
    exact hkeys _ (hkey ▸ mem_of_mem_keptSettings hg)
  · show (ss.map Prod.fst).Nodup
    rw [hfst]
    unfold keptSettings
    rw [List.map_map]
    exact hfs.distinct.sublist (List.filter_sublist.map Prod.fst)

/-- What is left of a section can be written at the root or as a section with a header. -/
inductive Keepable (f : String × Value) : Prop
  | root (h : Rooted f) (hpruned : prunedSection (settingsOf f.1) f.2 = f.2.stripped)
  | header (s : Section) (h : s.Plain) (hname : s.name = f.1)
      (hfields : sectionContent (.table .header s.fields) =
        sectionContent (prunedSection (settingsOf f.1) f.2))

theorem keepable_of_mem (hsound : doc.Sound T) (h : ∀ s ∈ layout, SectionAccepted doc s.1 s.2)
    {f : String × Value} (hf : f ∈ doc) (hname : layout.lookup f.1 = some settings) : Keepable f := by
  have hlayout := Fields.mem_of_lookup_eq_some hname
  obtain ⟨fs, hfs, haccepted⟩ := accepted_of_mem hsound h hf hname
  have hsettings := settingsOf_of_lookup hname
  -- what is no table can be written at the root under its key
  have hroot : f.2.isTable = false → Rooted f := by
    intro htable
    obtain ⟨n, cs, rest, hn, hread⟩ := (hsound.values f hf).readable htable
    exact ⟨(layout_plain _ hlayout).1, (writtenWithin_of_read hread).mono hn⟩
  obtain ⟨name, v⟩ := f
  cases v with
  | table form gs =>
    cases hfs
    obtain ⟨s, hs, rfl, hfields⟩ := exists_section (Fields.sound_of_table (hsound.values _ hf))
      haccepted hlayout
    refine .header s hs rfl ?_
    rw [hsettings, hfields]
    show _ = sectionContent (.table form (keptSettings settings fs))
    cases keptSettings settings fs <;> rfl
  | tables elements =>
    cases hfs
    obtain rfl := tables_of_settings (settings_ne_nil _ hlayout) haccepted
    cases hsound.values _ hf with
    | leaf hv => cases hv
    | tables hne => exact absurd rfl hne
  | array vs => exact .root (hroot rfl) rfl
  | moment => exact .root (hroot rfl) rfl
  | string s => exact .root (hroot rfl) rfl
  | integer n => exact .root (hroot rfl) rfl
  | float => exact .root (hroot rfl) rfl
  | boolean b => exact .root (hroot rfl) rfl

theorem exists_parts : ∀ {l : Fields}, (∀ f ∈ l, Keepable f) → ∃ (roots : Fields) (ss : List Section),
    (∀ f ∈ roots, Rooted f) ∧ (∀ s ∈ ss, s.Plain) ∧
    (roots.map Prod.fst ++ ss.map Section.name).Perm (l.map Prod.fst) ∧
    ∀ f ∈ l, ∃ w, (f.1, w) ∈ roots.map (fun f => (f.1, f.2.stripped)) ++ ss.map Section.table ∧
      sectionContent w = sectionContent (prunedSection (settingsOf f.1) f.2)
  | [], _ => ⟨[], [], by simp, by simp, by simp, by simp⟩
  | f :: l, h => by
    obtain ⟨hf, hl⟩ := List.forall_mem_cons.mp h
    obtain ⟨roots, ss, hroots, hss, hperm, hcontent⟩ := exists_parts hl
    cases hf with
    | root hroot hpruned =>
      refine ⟨f :: roots, ss, List.forall_mem_cons.mpr ⟨hroot, hroots⟩, hss, hperm.cons _,
        List.forall_mem_cons.mpr ⟨⟨f.2.stripped, by simp, by rw [hpruned]⟩, fun g hg => ?_⟩⟩
      obtain ⟨w, hw, hcontent⟩ := hcontent g hg
      exact ⟨w, by simpa using Or.inr hw, hcontent⟩
    | header s hs hname hfields =>
      refine ⟨roots, s :: ss, hroots, List.forall_mem_cons.mpr ⟨hs, hss⟩, ?_,
        List.forall_mem_cons.mpr ⟨⟨_, ?_, hfields⟩, fun g hg => ?_⟩⟩
      -- a header goes behind the roots
      · rw [List.map_cons, List.map_cons, hname]
        exact List.perm_middle.trans (hperm.cons _)
      · rw [← hname]
        simp [Section.table]
      · obtain ⟨w, hw, hcontent⟩ := hcontent g hg
        refine ⟨w, ?_, hcontent⟩
        rw [List.map_cons]
        rcases List.mem_append.mp hw with hw | hw
        · exact List.mem_append_left _ hw
        · exact List.mem_append_right _ (List.mem_cons_of_mem _ hw)

def known (doc : Fields) : Fields :=
  doc.filter fun f => (layout.lookup f.1).isSome

theorem mem_known {f : String × Value} :
    f ∈ known doc ↔ f ∈ doc ∧ (layout.lookup f.1).isSome = true :=
  List.mem_filter

theorem removed_of_perm (hdistinct : (doc'.map Prod.fst).Nodup)
    (hperm : (doc'.map Prod.fst).Perm ((known doc).map Prod.fst))
    (hcontent : ∀ f ∈ known doc, ∃ w, (f.1, w) ∈ doc' ∧
      sectionContent w = sectionContent (prunedSection (settingsOf f.1) f.2)) : Removed doc doc' := by
  have hmem : ∀ name ∈ doc'.map Prod.fst,
      name ∈ doc.map Prod.fst ∧ (layout.lookup name).isSome = true := by
    intro name hname
    obtain ⟨f, hf, rfl⟩ := List.mem_map.mp (hperm.mem_iff.mp hname)
    obtain ⟨hf, hknown⟩ := mem_known.mp hf
    exact ⟨List.mem_map_of_mem hf, hknown⟩
  refine ⟨fun f hf => (hmem _ (List.mem_map_of_mem hf)).2, fun name => ?_⟩
  unfold content
  rw [lookup_pruned]
  cases hname : layout.lookup name with
  | none =>
    -- a name that means nothing is in neither document
    rw [Option.bind_none, lookup_eq_none]
    intro hmem'
    have hsome := (hmem name hmem').2
    rw [hname] at hsome
    cases hsome
  | some settings =>
    rw [Option.bind_some]
    cases hlookup : doc.lookup name with
    | none =>
      rw [lookup_eq_none]
      · rfl
      · exact fun hmem' => Fields.not_mem_of_lookup_eq_none hlookup (hmem name hmem').1
    | some v =>
      obtain ⟨w, hw, hcontent⟩ := hcontent (name, v)
        (mem_known.mpr ⟨Fields.mem_of_lookup_eq_some hlookup, by simp [hname]⟩)
      rw [settingsOf_of_lookup hname] at hcontent
      rw [Fields.lookup_of_mem hdistinct hw, Option.map_some, Option.bind_some, Option.bind_some, hcontent]

theorem exists_removed (hsound : doc.Sound T) (h : ∀ s ∈ layout, SectionAccepted doc s.1 s.2) :
    ∃ text doc', read text = some doc' ∧ Removed doc doc' := by
  have hkeepable : ∀ f ∈ known doc, Keepable f := by
    intro f hf
    obtain ⟨hf, hknown⟩ := mem_known.mp hf
    obtain ⟨settings, hname⟩ := Option.isSome_iff_exists.mp hknown
    exact keepable_of_mem hsound h hf hname
  obtain ⟨roots, ss, hroots, hss, hperm, hcontent⟩ := exists_parts hkeepable
  have hdistinct : (roots.map Prod.fst ++ ss.map Section.name).Nodup :=
    hperm.nodup_iff.mpr (hsound.distinct.sublist (List.filter_sublist.map Prod.fst))
  have hkeys : (roots.map (fun f => (f.1, f.2.stripped)) ++ ss.map Section.table).map Prod.fst =
      roots.map Prod.fst ++ ss.map Section.name := by
    simp [Section.table, Function.comp_def]
  exact ⟨_, _, read_writeRooted hroots hss hdistinct,
    removed_of_perm (hkeys ▸ hdistinct) (hkeys ▸ hperm) hcontent⟩

/-! ## Accepted texts -/

/-- Unknown keys are told of and change nothing, in a document with no section that is a date and none
that is an array with keys in it. Without them every document is accepted as the same configuration,
and there are warnings only about its dates. -/
theorem unknown_keys_iff {file : Path} {text : String} {c : Config} {ws : List Warning}
    (h : parse file text = .ok (c, ws)) : ∃ doc, read text = some doc ∧
      (∃ text' doc', read text' = some doc' ∧ Removed doc doc') ∧
      (∀ text' doc', read text' = some doc' → Removed doc doc' →
        ∃ ws', parse file text' = .ok (c, ws') ∧ (ws' = [] ↔ doc.countP isDate = 0)) ∧
      ws.length + (doc.map hidden).sum = (doc.map outermost).sum + doc.countP isDate ∧
      ((ws.length = (doc.map outermost).sum ∧ ∀ text' doc', read text' = some doc' →
          Removed doc doc' → parse file text' = .ok (c, [])) ↔
        doc.countP isDate = 0 ∧ (doc.map hidden).sum = 0) := by
  obtain ⟨doc, hread, hof, rfl⟩ := parse_eq_ok_iff.mp h
  have hsound := read_sound hread
  have haccepted := accepts_of_ofDocument hof
  have hexists := exists_removed hsound haccepted
  -- whatever has been left out, the configuration is the same
  have hleft : ∀ text' doc', read text' = some doc' → Removed doc doc' →
      ∃ ws', parse file text' = .ok (c, ws') ∧ (ws' = [] ↔ doc.countP isDate = 0) := by
    intro text' doc' hread' hremoved
    refine ⟨_, parse_eq_ok_iff.mpr ⟨doc', hread', ofDocument_of_removed hof hremoved, rfl⟩, ?_⟩
    rw [List.map_eq_nil_iff]
    exact unknownKeys_of_removed hsound.distinct (read_sound hread').distinct hremoved
  have hcount : ((unknownKeys doc).map (warningFor file text)).length + (doc.map hidden).sum =
      (doc.map outermost).sum + doc.countP isDate := by
    rw [List.length_map, length_unknownKeys]
    exact sum_add_countP fun f hf => warned_add_hidden hsound haccepted hf
  refine ⟨doc, hread, hexists, hleft, hcount, fun ⟨hlength, hnone⟩ => ?_, fun ⟨hdates, hhidden⟩ => ?_⟩
  -- some text reads as what is left, and is warned of for its dates alone
  · obtain ⟨text', doc', hread', hremoved⟩ := hexists
    obtain ⟨ws', hparse, hiff⟩ := hleft text' doc' hread' hremoved
    rw [hnone text' doc' hread' hremoved] at hparse
    cases hparse
    have hdates := hiff.mp rfl
    exact ⟨hdates, by omega⟩
  · refine ⟨by omega, fun text' doc' hread' hremoved => ?_⟩
    obtain ⟨ws', hparse, hiff⟩ := hleft text' doc' hread' hremoved
    rw [hparse, hiff.mpr hdates]

/-- A value, a setting and a table that mean nothing, beside a setting that does. -/
def astray : String :=
  "stray = 1\n[backend]\nprogam = \"x\"\nprogram = \"cc\"\n[backend.more]\nlimit = 1\n"

theorem unknown_keys_iff_astray : ∃ c ws, parse ⟨"summon.toml"⟩ astray = .ok (c, ws) ∧
    ws.map Warning.key = ["stray", "progam", "more"] ∧ c.program = some "cc" ∧
    ∃ doc, read astray = some doc ∧ (doc.map outermost).sum = 3 ∧
      ∀ text' doc', read text' = some doc' → Removed doc doc' →
        parse ⟨"summon.toml"⟩ text' = .ok (c, []) := by
  have hparse : parse ⟨"summon.toml"⟩ astray = .ok ({ initial with program := some "cc" },
      [⟨"stray", ⟨"summon.toml"⟩, some 1, none⟩, ⟨"progam", ⟨"summon.toml"⟩, some 3, some "program"⟩,
        ⟨"more", ⟨"summon.toml"⟩, some 5, some "store"⟩]) := by
    decide +kernel
  have hcounts : (read astray).map (fun doc => (doc.countP isDate, (doc.map hidden).sum)) =
      some (0, 0) := by
    decide +kernel
  obtain ⟨doc, hread, -, -, -, hiff⟩ := unknown_keys_iff hparse
  rw [hread] at hcounts
  obtain ⟨hdates, hhidden⟩ := Prod.mk.inj (Option.some.inj hcounts)
  obtain ⟨hlength, hleft⟩ := hiff.mpr ⟨hdates, hhidden⟩
  exact ⟨_, _, hparse, rfl, rfl, doc, hread, hlength.symm, hleft⟩

def dated : String :=
  "namespace = 1979-05-27"

/-- There is a warning about it, and no key that means nothing. -/
theorem date_warned : ¬ ∀ (file : Path) (text : String) (c : Config) (ws : List Warning),
    parse file text = .ok (c, ws) → ∃ doc, read text = some doc ∧
      ws.length = (doc.map outermost).sum ∧ ∀ text' doc', read text' = some doc' → Removed doc doc' →
        parse file text' = .ok (c, []) := by
  intro h
  have hparse : parse ⟨"summon.toml"⟩ dated =
      .ok (initial, [⟨momentKey, ⟨"summon.toml"⟩, none, none⟩]) := by
    decide +kernel
  have hcount : (read dated).map (fun doc => (doc.map outermost).sum) = some 0 := by decide +kernel
  obtain ⟨doc, hread, hlength, -⟩ := h _ _ _ _ hparse
  rw [hread] at hcount
  have hcount : (doc.map outermost).sum = 0 := Option.some.inj hcount
  rw [hcount] at hlength
  cases hlength

end OnDemand.Config
