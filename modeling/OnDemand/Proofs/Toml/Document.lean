import OnDemand.Proofs.Toml.Keyless

/-!
# What a document holds

Whatever the statements of a document are, no table of it holds a key twice, no key stands for an
empty list of tables, and a value that is no table was read as a whole. Each key stands at a place
that a statement leads to: the places are given as a property of paths, and every beginning of a
path that a statement goes along must have it (`Fields.ofStatements_sound`).
-/

namespace OnDemand.Toml

variable {S : List String → Prop} {fs fs' : Fields} {key : String} {v : Value}

def Key.parts (k : Key) : List String :=
  k.path ++ [k.last]

/-- A value that a text was read as, in a document or further inside one. -/
def Value.Readable (v : Value) : Prop :=
  ∃ n cs rest, n ≤ nestingLimit ∧ readValueWithin n cs = some (v, rest)

/-- What a value can be in a document whose keys stand at certain paths below it. -/
inductive Value.Sound : (List String → Prop) → Value → Prop
  | leaf {S : List String → Prop} {v : Value} (hv : v.isTable = false) (h : v.Readable) : Sound S v
  | table {S : List String → Prop} {form : Form} {fs : Fields} (distinct : (fs.map Prod.fst).Nodup)
      (keys : ∀ f ∈ fs, S [f.1]) (values : ∀ f ∈ fs, Sound (fun p => S (f.1 :: p)) f.2) :
      Sound S (.table form fs)
  | tables {S : List String → Prop} {elements : List Fields} (h : elements ≠ []) :
      Sound S (.tables elements)

theorem Value.Sound.readable (h : v.Sound S) (hv : v.isTable = false) : v.Readable := by
  cases h with
  | leaf _ h => exact h
  | table => cases hv
  | tables => cases hv

namespace Fields

structure Sound (S : List String → Prop) (fs : Fields) : Prop where
  distinct : (fs.map Prod.fst).Nodup
  keys : ∀ f ∈ fs, S [f.1]
  values : ∀ f ∈ fs, f.2.Sound fun p => S (f.1 :: p)

theorem Sound.table (h : fs.Sound S) (form : Form) : (Value.table form fs).Sound S :=
  .table h.distinct h.keys h.values

theorem sound_of_table {form : Form} (h : (Value.table form fs).Sound S) : fs.Sound S := by
  cases h with
  | leaf hv => cases hv
  | table distinct keys values => exact ⟨distinct, keys, values⟩

theorem sound_nil : Sound S [] :=
  ⟨List.nodup_nil, by simp, by simp⟩

theorem mem_of_lookup_eq_some {α : Type} {fs : List (String × α)} {a : α}
    (h : fs.lookup key = some a) : (key, a) ∈ fs := by
  obtain ⟨before, after, rfl, -⟩ := List.lookup_eq_some_iff.mp h
  simp

theorem lookup_of_mem : ∀ {fs : Fields}, (fs.map Prod.fst).Nodup → ∀ {f}, f ∈ fs →
    fs.lookup f.1 = some f.2
  | g :: fs, hdistinct, f, hf => by
    obtain ⟨hg, hdistinct⟩ := List.nodup_cons.mp hdistinct
    rw [List.lookup_cons]
    rcases List.mem_cons.mp hf with rfl | hf
    · simp
    · have hne : (f.1 == g.1) = false := by
        simp only [beq_eq_false_iff_ne]
        exact fun he => hg (he ▸ List.mem_map_of_mem hf)
      rw [hne]
      exact lookup_of_mem hdistinct hf

theorem not_mem_of_lookup_eq_none (h : fs.lookup key = none) : key ∉ fs.map Prod.fst := by
  rintro hmem
  obtain ⟨f, hf, rfl⟩ := List.mem_map.mp hmem
  simpa using List.lookup_eq_none_iff.mp h f hf

theorem Sound.append (h : fs.Sound S) (hkey : key ∉ fs.map Prod.fst) (hplace : S [key])
    (hv : v.Sound fun p => S (key :: p)) : Sound S (fs ++ [(key, v)]) where
  distinct := by
    rw [List.map_append]
    refine List.nodup_append.mpr ⟨h.distinct, by simp, ?_⟩
    rintro a ha b hb rfl
    obtain rfl : a = key := by simpa using hb
    exact hkey ha
  keys f hf := by
    rcases List.mem_append.mp hf with hf | hf
    · exact h.keys f hf
    · obtain rfl := List.mem_singleton.mp hf
      exact hplace
  values f hf := by
    rcases List.mem_append.mp hf with hf | hf
    · exact h.values f hf
    · obtain rfl := List.mem_singleton.mp hf
      exact hv

theorem map_fst_put (key : String) (v : Value) (fs : Fields) :
    (put key v fs).map Prod.fst = fs.map Prod.fst := by
  unfold put
  rw [List.map_map]
  refine List.map_congr_left fun f _ => ?_
  by_cases hf : f.1 = key
  · simp [hf]
  · simp [hf]

theorem mem_put {f : String × Value} (h : f ∈ put key v fs) : f = (key, v) ∨ f ∈ fs := by
  obtain ⟨g, hg, rfl⟩ := List.mem_map.mp h
  split
  · exact Or.inl rfl
  · exact Or.inr hg

theorem Sound.put (h : fs.Sound S) (hv : v.Sound fun p => S (key :: p)) :
    Sound S (put key v fs) where
  distinct := by
    rw [map_fst_put]
    exact h.distinct
  keys f hf := by
    have hmem : f.1 ∈ fs.map Prod.fst := by
      rw [← map_fst_put key v fs]
      exact List.mem_map_of_mem hf
    obtain ⟨g, hg, hfst⟩ := List.mem_map.mp hmem
    rw [← hfst]
    exact h.keys g hg
  values f hf := by
    rcases mem_put hf with rfl | hf
    · exact hv
    · exact h.values f hf

theorem Sound.erase (h : fs.Sound S) (key : String) : Sound S (erase key fs) where
  distinct := h.distinct.sublist ((List.filter_sublist (l := fs)).map Prod.fst)
  keys f hf := h.keys f (List.mem_filter.mp hf).1
  values f hf := h.values f (List.mem_filter.mp hf).1

theorem not_mem_map_fst_erase (key : String) (fs : Fields) : key ∉ (erase key fs).map Prod.fst := by
  rintro hmem
  obtain ⟨f, hf, hkey⟩ := List.mem_map.mp hmem
  simpa [hkey] using (List.mem_filter.mp hf).2

/-! ## Changes at a path -/

/-- A path whose beginnings all have a property. -/
def Along (S : List String → Prop) (path : List String) : Prop :=
  ∀ p, p ≠ [] → p <+: path → S p

theorem Along.self {path : List String} (h : Along S path) (hne : path ≠ []) : S path :=
  h path hne (List.prefix_refl path)

theorem Along.prefix_of {path path' : List String} (h : Along S path) (hp : path' <+: path) :
    Along S path' :=
  fun p hne hpre => h p hne (hpre.trans hp)

theorem Along.tail {path : List String} (h : Along S (key :: path)) :
    Along (fun p => S (key :: p)) path :=
  fun p _ hpre => h (key :: p) (by simp) (List.cons_prefix_cons.mpr ⟨rfl, hpre⟩)

/-- A change that keeps the table at a path as it should be keeps the whole. Of the way through
tables under one key nothing more is known than that there are some. -/
theorem alter_sound {viaDotted : Bool} {change : Form → Fields → Option Fields} :
    ∀ {path : List String} {S : List String → Prop} {form : Form} {fs fs' : Fields},
    Along S path →
    (∀ form fs fs', Sound (fun p => S (path ++ p)) fs → change form fs = some fs' →
      Sound (fun p => S (path ++ p)) fs') →
    Sound S fs → alter viaDotted change path form fs = some fs' → Sound S fs'
  | [], S, form, fs, fs', _, hchange, h, halter => hchange form fs fs' h halter
  | key :: path, S, form, fs, fs', hpath, hchange, h, halter => by
    have hplace : S [key] := hpath [key] (by simp) (by simp)
    -- what is known of a table under the key holds of the changed one
    have ih : ∀ {form sub sub'}, Sound (fun p => S (key :: p)) sub →
        alter viaDotted change path form sub = some sub' → Sound (fun p => S (key :: p)) sub' :=
      fun hsub => alter_sound hpath.tail hchange hsub
    rw [alter] at halter
    split at halter
    · rename_i hnone
      obtain ⟨sub, hsub, rfl⟩ := Option.map_eq_some_iff.mp halter
      exact h.append (not_mem_of_lookup_eq_none hnone) hplace ((ih sound_nil hsub).table _)
    · rename_i form' sub hsome
      split at halter
      · obtain ⟨sub', hsub', rfl⟩ := Option.map_eq_some_iff.mp halter
        have hsub := sound_of_table (h.values _ (mem_of_lookup_eq_some hsome))
        exact h.put ((ih hsub hsub').table _)
      · cases halter
    · obtain ⟨sub', -, rfl⟩ := Option.map_eq_some_iff.mp halter
      exact h.put (.tables (by simp))
    · cases halter

theorem add_sound (h : fs.Sound S) (hplace : S [key]) (hv : v.Sound fun p => S (key :: p))
    (hadd : add key v fs = some fs') : fs'.Sound S := by
  unfold add at hadd
  split at hadd
  · cases hadd
  · rename_i hnone
    obtain rfl := Option.some.inj hadd
    have hnone := Option.not_isSome_iff_eq_none.mp hnone
    exact h.append (not_mem_of_lookup_eq_none hnone) hplace hv

theorem assign_sound {k : Key} {form : Form} (h : fs.Sound S) (hk : Along S k.parts)
    (hv : v.Sound fun p => S (k.parts ++ p)) (hassign : assign k v form fs = some fs') :
    fs'.Sound S := by
  refine alter_sound (hk.prefix_of (List.prefix_append _ _)) ?_ h hassign
  intro form sub sub' hsub hchange
  split at hchange
  · cases hchange
  · refine add_sound hsub (hk.self (by simp [Key.parts])) ?_ hchange
    simpa [Key.parts] using hv

theorem openTable_sound {k : Key} (h : fs.Sound S) (hk : Along S k.parts)
    (hopen : openTable k fs = some fs') : fs'.Sound S := by
  have hplace : S (k.path ++ [k.last]) := hk.self (by simp [Key.parts])
  refine alter_sound (hk.prefix_of (List.prefix_append _ _)) ?_ h hopen
  intro _ sub sub' hsub hchange
  split at hchange
  · rename_i hnone
    obtain rfl := Option.some.inj hchange
    exact hsub.append (not_mem_of_lookup_eq_none hnone) hplace (sound_nil.table _)
  · rename_i inner hsome
    obtain rfl := Option.some.inj hchange
    have hinner := sound_of_table (hsub.values _ (mem_of_lookup_eq_some hsome))
    exact (hsub.erase _).append (not_mem_map_fst_erase _ _) hplace (hinner.table _)
  · cases hchange

theorem openElement_sound {k : Key} (h : fs.Sound S) (hk : Along S k.parts)
    (hopen : openElement k fs = some fs') : fs'.Sound S := by
  have hplace : S (k.path ++ [k.last]) := hk.self (by simp [Key.parts])
  refine alter_sound (hk.prefix_of (List.prefix_append _ _)) ?_ h hopen
  intro _ sub sub' hsub hchange
  split at hchange
  · rename_i hnone
    obtain rfl := Option.some.inj hchange
    exact hsub.append (not_mem_of_lookup_eq_none hnone) hplace (.tables (by simp))
  · obtain rfl := Option.some.inj hchange
    exact hsub.put (.tables (by simp))
  · cases hchange

/-! ## Tables in braces -/

/-- An assignment whose key goes along places and whose value is as it should be there. -/
structure AssignmentSound (S : List String → Prop) (a : Key × Value) : Prop where
  key : Along S a.1.parts
  value : a.2.Sound fun p => S (a.1.parts ++ p)

theorem foldlM_assign_sound : ∀ {assignments : List (Key × Value)} {fs fs' : Fields}, fs.Sound S →
    (∀ a ∈ assignments, AssignmentSound S a) →
    assignments.foldlM (fun fs (k, v) => assign k v .closed fs) fs = some fs' → fs'.Sound S
  | [], fs, fs', h, _, hfold => by
    obtain rfl := Option.some.inj hfold
    exact h
  | a :: assignments, fs, fs', h, hall, hfold => by
    obtain ⟨ha, hall⟩ := List.forall_mem_cons.mp hall
    rw [List.foldlM_cons] at hfold
    obtain ⟨sub, hsub, hfold⟩ := Option.bind_eq_some_iff.mp hfold
    exact foldlM_assign_sound (assign_sound h ha.key ha.value hsub) hall hfold

theorem ofAssignments_sound {assignments : List (Key × Value)}
    (h : ∀ a ∈ assignments, AssignmentSound S a) (hof : ofAssignments assignments = some fs) :
    fs.Sound S :=
  foldlM_assign_sound sound_nil h hof

end Fields

/-! ## Statements -/

open Fields

namespace Statement

def after (here : List String) : Statement → List String
  | .header k => k.parts
  | .doubleHeader k => k.parts
  | .assign _ _ => here

/-- A statement whose key goes along places, below the table that assignments go to. -/
def Sound (S : List String → Prop) (here : List String) : Statement → Prop
  | .header k => Along S k.parts
  | .doubleHeader k => Along S k.parts
  | .assign k v => AssignmentSound (fun p => S (here ++ p)) (k, v)

def AllSound (S : List String → Prop) : List String → List Statement → Prop
  | _, [] => True
  | here, s :: ss => s.Sound S here ∧ AllSound S (s.after here) ss

end Statement

namespace Draft

structure Sound (S : List String → Prop) (d : Draft) : Prop where
  fields : d.fields.Sound S
  here : Along S d.here

theorem here_step {d d' : Draft} {s : Statement} (h : d.step s = some d') :
    d'.here = s.after d.here := by
  cases s with
  | header k =>
    obtain ⟨fs, -, rfl⟩ := Option.map_eq_some_iff.mp h
    rfl
  | doubleHeader k =>
    obtain ⟨fs, -, rfl⟩ := Option.map_eq_some_iff.mp h
    rfl
  | assign k v =>
    obtain ⟨fs, -, rfl⟩ := Option.map_eq_some_iff.mp h
    rfl

theorem step_sound {d d' : Draft} {s : Statement} (hd : d.Sound S) (hs : s.Sound S d.here)
    (h : d.step s = some d') : d'.Sound S := by
  cases s with
  | header k =>
    obtain ⟨fs, hfs, rfl⟩ := Option.map_eq_some_iff.mp h
    exact ⟨openTable_sound hd.fields hs hfs, hs⟩
  | doubleHeader k =>
    obtain ⟨fs, hfs, rfl⟩ := Option.map_eq_some_iff.mp h
    exact ⟨openElement_sound hd.fields hs hfs, hs⟩
  | assign k v =>
    obtain ⟨fs, hfs, rfl⟩ := Option.map_eq_some_iff.mp h
    refine ⟨alter_sound hd.here ?_ hd.fields hfs, hd.here⟩
    exact fun form sub sub' hsub hassign => assign_sound hsub hs.key hs.value hassign

theorem foldlM_step_sound : ∀ {ss : List Statement} {d d' : Draft}, d.Sound S →
    Statement.AllSound S d.here ss → ss.foldlM step d = some d' → d'.Sound S
  | [], d, d', hd, _, hfold => by
    obtain rfl := Option.some.inj hfold
    exact hd
  | s :: ss, d, d', hd, hss, hfold => by
    rw [List.foldlM_cons] at hfold
    obtain ⟨e, he, hfold⟩ := Option.bind_eq_some_iff.mp hfold
    refine foldlM_step_sound (step_sound hd hss.1 he) ?_ hfold
    rw [here_step he]
    exact hss.2

end Draft

/-- The table that statements make up is as it should be. -/
theorem Fields.ofStatements_sound {ss : List Statement} (h : Statement.AllSound S [] ss)
    (hof : ofStatements ss = some fs) : fs.Sound S := by
  obtain ⟨d, hd, rfl⟩ := Option.map_eq_some_iff.mp hof
  have hempty : Draft.empty.Sound S := ⟨sound_nil, fun p hne hpre => absurd (List.prefix_nil.mp hpre) hne⟩
  exact (Draft.foldlM_step_sound hempty h hd).fields

end OnDemand.Toml
