import OnDemand.Command.Build
import OnDemand.Proofs.Text
import OnDemand.Store

/-!
# Processors told by their option value

The option value is the identifiers of a set with commas between. It comes apart into them again exactly
if none of them holds a comma (`pieces_optionValue_iff`), and among such sets no two have the same option
value. A name may hold a comma, so a stored processor may (`option_tells_iff`).
-/

namespace OnDemand.Processors

variable {builtin : List String} {store : Store} {s t : ProcessorSet} {v id : String}

/-- No identifier of a set holds a comma. -/
def CommaFree (s : ProcessorSet) : Prop :=
  ∀ id ∈ s.items, ',' ∉ id.toList

theorem optionValue_eq_none_iff : optionValue s = none ↔ s.items = [] := by
  unfold optionValue TextSet.isEmpty
  split
  · rename_i h
    simpa using h
  · rename_i h
    simpa using h

theorem optionValue_spec (h : optionValue s = some v) :
    s.items ≠ [] ∧ v.toList = [','].intercalate (s.items.map String.toList) := by
  unfold optionValue TextSet.isEmpty at h
  split at h
  · cases h
  · rename_i hne
    obtain rfl := Option.some.inj h
    refine ⟨by simpa using hne, ?_⟩
    rw [String.toList_intercalate]
    rfl

/-- The option value comes apart at the commas into the identifiers if they hold none. Otherwise not: no
piece holds a comma. -/
theorem pieces_optionValue_iff (h : optionValue s = some v) :
    piecesOf (· == ',') v = s.items ↔ CommaFree s := by
  obtain ⟨hne, hv⟩ := optionValue_spec h
  constructor
  · intro hpieces id hid hcomma
    rw [← hpieces] at hid
    obtain ⟨p, hp, rfl⟩ := List.mem_map.mp hid
    rw [String.toList_ofList] at hcomma
    have := Text.not_sep_of_mem_pieces (· == ',') _ p hp ',' hcomma
    simp at this
  · intro hfree
    have hcomma : ∀ p ∈ s.items.map String.toList, ∀ x ∈ p, (x == ',') = false := by
      intro p hp x hx
      obtain ⟨id, hid, rfl⟩ := List.mem_map.mp hp
      have : x ≠ ',' := fun he => hfree id hid (he ▸ hx)
      simpa using this
    rw [piecesOf, hv, Text.pieces_intercalate (by rfl) (by simpa using hne) hcomma, List.map_map]
    simp

theorem eq_of_items (h : s.items = t.items) : s = t := by
  cases s
  cases t
  exact (TextSet.mk.injEq ..).mpr h

theorem optionValue_inj (hs : CommaFree s) (ht : CommaFree t) :
    optionValue s = optionValue t ↔ s = t := by
  refine ⟨fun h => eq_of_items ?_, fun h => by rw [h]⟩
  cases hv : optionValue s with
  | none => rw [optionValue_eq_none_iff.mp hv, optionValue_eq_none_iff.mp (h ▸ hv)]
  | some v => rw [← (pieces_optionValue_iff hv).mpr hs, (pieces_optionValue_iff (h ▸ hv)).mpr ht]

theorem optionValue_of_allArguments {f : CommandForm} {staging : Staging} {sources : List Path}
    (h : f.allArguments staging s sources = f.allArguments staging t sources) :
    optionValue s = optionValue t := by
  unfold CommandForm.allArguments at h
  simp only [List.append_cancel_right_eq, List.append_cancel_left_eq] at h
  cases hs : optionValue s <;> cases ht : optionValue t <;> simp_all

/-! ## Processors of a store -/

/-- What a compiler run is offered with some built-in processors and a store. -/
def offered (builtin : List String) (store : Store) : ProcessorSet :=
  available (.ofList builtin) store.artifacts

theorem mem_offered : id ∈ offered builtin store ↔
    id ∈ builtin ∨ ∃ a ∈ store.artifacts, a.isProcessor = true ∧ a.name.text = id := by
  unfold offered available TextSet.ofList
  rw [TextSet.mem_insertAll, TextSet.mem_insertAll]
  simp [and_assoc]

/-- The stored artifacts that are processors have names without commas. -/
def NamesCommaFree (store : Store) : Prop :=
  ∀ a ∈ store.artifacts, a.isProcessor = true → ',' ∉ a.name.text.toList

theorem commaFree_offered_iff (hbuiltin : ∀ id ∈ builtin, ',' ∉ id.toList) :
    CommaFree (offered builtin store) ↔ NamesCommaFree store := by
  constructor
  · intro h a ha hp
    exact h _ (mem_offered.mpr (Or.inr ⟨a, ha, hp, rfl⟩))
  · intro h id hid
    rcases mem_offered.mp hid with hb | ⟨a, ha, hp, rfl⟩
    · exact hbuiltin id hb
    · exact h a ha hp

/-- With built-in processors that hold no commas the option value is absent exactly for the empty set, and
comes apart into the identifiers, which ascend, exactly if the stored processors hold no commas either.
Then no other set without commas makes the arguments of a compiler run what they are. -/
theorem option_tells_iff (hbuiltin : ∀ id ∈ builtin, ',' ∉ id.toList) (store : Store) :
    (optionValue (offered builtin store) = none ↔ (offered builtin store).items = []) ∧
    (∀ v, optionValue (offered builtin store) = some v →
      (piecesOf (· == ',') v = (offered builtin store).items ↔ NamesCommaFree store)) ∧
    (offered builtin store).items.Pairwise (· < ·) ∧
    (NamesCommaFree store → ∀ t, CommaFree t → ∀ (f : CommandForm) (staging : Staging)
      (sources : List Path), f.allArguments staging (offered builtin store) sources =
        f.allArguments staging t sources → offered builtin store = t) := by
  refine ⟨optionValue_eq_none_iff, fun v hv => ?_, (offered builtin store).ascending,
    fun hnames t ht f staging sources h => ?_⟩
  · rw [pieces_optionValue_iff hv, commaFree_offered_iff hbuiltin]
  · exact (optionValue_inj ((commaFree_offered_iff hbuiltin).mpr hnames) ht).mp
      (optionValue_of_allArguments h)

namespace Example

def processor (n : Name) : Artifact :=
  (Artifact.plain n ⟨#[0]⟩).withCapability .extensionProcessor

def joined : Store :=
  Store.empty.insert (processor ⟨"gen,opt", by decide +kernel⟩)

/-- A store with the two processors that the comma divides the name into. -/
def apart : Store :=
  (Store.empty.insert (processor ⟨"gen", by decide +kernel⟩)).insert
    (processor ⟨"opt", by decide +kernel⟩)

end Example

open Example in
theorem option_tells_iff_apart : NamesCommaFree apart ∧
    optionValue (offered ["std"] apart) = some "gen,opt,std" ∧
    piecesOf (· == ',') "gen,opt,std" = (offered ["std"] apart).items := by
  have hnames : NamesCommaFree apart := by
    unfold NamesCommaFree
    decide +kernel
  have hvalue : optionValue (offered ["std"] apart) = some "gen,opt,std" := by decide +kernel
  obtain ⟨-, hpieces, -⟩ := @option_tells_iff ["std"] (by decide) apart
  exact ⟨hnames, hvalue, (hpieces _ hvalue).mpr hnames⟩

open Example in
/-- A processor whose name holds a comma has the option value of two others. -/
theorem comma_joins_processors :
    (offered [] joined).items = ["gen,opt"] ∧ (offered [] apart).items = ["gen", "opt"] ∧
    optionValue (offered [] joined) = some "gen,opt" ∧ optionValue (offered [] apart) = some "gen,opt" ∧
    piecesOf (· == ',') "gen,opt" = ["gen", "opt"] := by
  refine ⟨?_, ?_, ?_, ?_, ?_⟩ <;> decide +kernel

end OnDemand.Processors
