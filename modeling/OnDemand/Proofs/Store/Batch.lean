import OnDemand.Engine.Step
import OnDemand.Proofs.Store

/-!
# Storing a list in one step

`putAll` looks at a whole list before it stores any of it. What it comes to is told by storing the
artifacts one after the other (`puts`): with the artifacts that are pending the store holds what the
store of the single steps holds, so each artifact is judged alike (`lacking_puts`). `putAll_iff` puts
this together: the same store and the new names in order, or the error of the first artifact that is
refused and the store as it was.
-/

namespace OnDemand

theorem insertArtifact_perm {a : Artifact} : ∀ {l : List Artifact}, (∀ b ∈ l, b.name ≠ a.name) →
    (insertArtifact a l).Perm (a :: l)
  | [], _ => .refl _
  | b :: bs, h => by
    obtain ⟨hb, hbs⟩ := List.forall_mem_cons.mp h
    simp only [insertArtifact]
    by_cases hab : a.name < b.name
    · rw [if_pos hab]
    · rw [if_neg hab]
      by_cases hba : b.name < a.name
      · rw [if_pos hba]
        exact ((insertArtifact_perm hbs).cons b).trans (.swap a b bs)
      · exact absurd (Name.eq_of_text_eq
          (String.le_antisymm (String.not_lt.mp hab) (String.not_lt.mp hba))) hb

namespace Store

variable {s t u p : Store} {a : Artifact} {as : List Artifact} {n : Name}

/-! ## Stores and what they show -/

theorem get?_eq_some_iff : s.get? n = some a ↔ a ∈ s.artifacts ∧ a.name = n := by
  constructor
  · intro h
    exact ⟨List.mem_of_find?_eq_some h, name_of_get? h⟩
  · rintro ⟨ha, rfl⟩
    exact mem_artifacts.mp ha

theorem nodup_artifacts (s : Store) : s.artifacts.Nodup := by
  refine s.ascending.imp fun {a b} hlt => ?_
  rintro rfl
  exact String.lt_irrefl _ hlt

theorem eq_of_get? (h : ∀ n, s.get? n = t.get? n) : s = t := by
  have hmem : ∀ a, a ∈ s.artifacts ↔ a ∈ t.artifacts := fun a => by
    rw [mem_artifacts, mem_artifacts, h]
  have hperm := (List.perm_ext_iff_of_nodup s.nodup_artifacts t.nodup_artifacts).mpr hmem
  have hsame : s.artifacts = t.artifacts :=
    hperm.eq_of_pairwise (fun a b _ _ hab hba => absurd (String.lt_trans hab hba)
      (String.lt_irrefl _)) s.ascending t.ascending
  cases s
  cases t
  exact (Store.mk.injEq ..).mpr hsame

theorem sorted_unique {ns ms : List Name} (hn : ns.Pairwise (· < ·)) (hm : ms.Pairwise (· < ·))
    (h : ns.Perm ms) : ns = ms :=
  h.eq_of_pairwise (fun _ _ _ _ hab hba => absurd (String.lt_trans hab hba) (String.lt_irrefl _)) hn hm

theorem insert_perm (h : s.get? a.name = none) : (s.insert a).artifacts.Perm (a :: s.artifacts) :=
  insertArtifact_perm fun b hb => by simpa using List.find?_eq_none.mp h b hb

/-! ## One after the other -/

/-- Stores artifacts one after the other, up to the first that is refused, and tells what became of
each. -/
def puts (s : Store) : List Artifact → Except CallError (List PutOutcome × Store)
  | [] => .ok ([], s)
  | a :: as =>
    match s.put a with
    | .error e => .error e
    | .ok (o, t) =>
      match puts t as with
      | .error e => .error e
      | .ok (os, u) => .ok (o :: os, u)

def added (as : List Artifact) (os : List PutOutcome) : List Artifact :=
  ((as.zip os).filter fun r => r.2 = .inserted).map (·.1)

theorem puts_cons {o : PutOutcome} (h : s.put a = .ok (o, t)) (as : List Artifact) :
    s.puts (a :: as) = (t.puts as).map fun r => (o :: r.1, r.2) := by
  rw [puts, h]
  simp only
  cases t.puts as <;> rfl

theorem puts_cons_error {e : CallError} (h : s.put a = .error e) (as : List Artifact) :
    s.puts (a :: as) = .error e := by
  rw [puts, h]

theorem puts_append (rest : List Artifact) : ∀ {before : List Artifact} {s u : Store}
    {os : List PutOutcome}, s.puts before = .ok (os, u) →
    s.puts (before ++ rest) = (u.puts rest).map fun r => (os ++ r.1, r.2)
  | [], s, u, os, h => by
    obtain ⟨rfl, rfl⟩ := Prod.mk.inj (Except.ok.inj h)
    rw [List.nil_append]
    cases s.puts rest <;> rfl
  | a :: before, s, u, os, h => by
    cases hput : s.put a with
    | error e =>
      rw [puts_cons_error hput] at h
      cases h
    | ok r =>
      obtain ⟨o, t⟩ := r
      rw [puts_cons hput] at h
      cases hbefore : t.puts before with
      | error e =>
        rw [hbefore] at h
        cases h
      | ok r =>
        rw [hbefore] at h
        obtain ⟨rfl, rfl⟩ := Prod.mk.inj (Except.ok.inj h)
        rw [List.cons_append, puts_cons hput, puts_append rest hbefore]
        cases r.2.puts rest <;> rfl

/-- What is refused is the first artifact that does not go with those before it. -/
theorem puts_eq_error_iff {e : CallError} : s.puts as = .error e ↔ ∃ before a after os u,
    as = before ++ a :: after ∧ s.puts before = .ok (os, u) ∧ u.put a = .error e := by
  constructor
  · intro h
    induction as generalizing s with
    | nil => cases h
    | cons a as ih =>
      cases hput : s.put a with
      | error e' =>
        rw [puts_cons_error hput] at h
        obtain rfl := Except.error.inj h
        exact ⟨[], a, as, [], s, rfl, rfl, hput⟩
      | ok r =>
        obtain ⟨o, t⟩ := r
        rw [puts_cons hput] at h
        cases hrest : t.puts as with
        | ok r =>
          rw [hrest] at h
          cases h
        | error e' =>
          rw [hrest] at h
          obtain rfl := Except.error.inj h
          obtain ⟨before, b, after, os, u, rfl, hbefore, hb⟩ := ih hrest
          refine ⟨a :: before, b, after, o :: os, u, rfl, ?_, hb⟩
          rw [puts_cons hput, hbefore]
          rfl
  · rintro ⟨before, a, after, os, u, rfl, hbefore, ha⟩
    rw [puts_append _ hbefore, puts_cons_error ha]
    rfl

/-! ## In one step -/

/-- The store `u` holds what `s` holds and what is pending in `p`. -/
def Holds (u s p : Store) : Prop :=
  ∀ n, u.get? n = (s.get? n).or (p.get? n)

theorem Holds.insert (h : u.Holds s p) (a : Artifact) : (u.insert a).Holds s (p.insert a) := by
  intro n
  rw [get?_insert, get?_insert, h n, Option.or_assoc]

theorem added_inserted (a : Artifact) (as : List Artifact) (os : List PutOutcome) :
    added (a :: as) (.inserted :: os) = a :: added as os := rfl

theorem added_unchanged (a : Artifact) (as : List Artifact) (os : List PutOutcome) :
    added (a :: as) (.unchanged :: os) = added as os := rfl

/-- What is judged against the store and what is pending is judged as it would be alone. Both end at
the same artifact, or hold the same again with the same artifacts added. -/
theorem lacking_puts : ∀ (as : List Artifact) {p u : Store}, u.Holds s p →
    (∃ e, s.lacking p as = .error e ∧ u.puts as = .error e) ∨
      ∃ q os t, s.lacking p as = .ok q ∧ u.puts as = .ok (os, t) ∧ t.Holds s q ∧
        q.artifacts.Perm (added as os ++ p.artifacts) ∧ t.artifacts.Perm (added as os ++ u.artifacts)
  | [], p, u, h => Or.inr ⟨p, [], u, rfl, rfl, h, .refl _, .refl _⟩
  | a :: as, p, u, h => by
    have hheld := h a.name
    simp only [lacking]
    cases hj : judge ((s.get? a.name).or (p.get? a.name)) a with
    | error e =>
      have hput : u.put a = .error e := by simp only [put, hheld, hj]
      exact Or.inl ⟨e, rfl, puts_cons_error hput as⟩
    | ok o =>
      cases o with
      | inserted =>
        have hput : u.put a = .ok (.inserted, u.insert a) := by simp only [put, hheld, hj]
        have hfree := eq_none_of_judge hj
        obtain ⟨-, hp⟩ := Option.or_eq_none_iff.mp hfree
        -- what is put into the store on one side is pending on the other
        have hgrown : ∀ {q v : Store} {l : List Artifact}, q.get? a.name = none →
            v.artifacts.Perm (l ++ (q.insert a).artifacts) →
            v.artifacts.Perm (a :: l ++ q.artifacts) := fun hq hv =>
          hv.trans (((insert_perm hq).append_left _).trans List.perm_middle)
        rw [puts_cons hput]
        rcases lacking_puts as (h.insert a) with ⟨e, hl, hs⟩ | ⟨q, os, t, hl, hs, ht, hq, hu⟩
        · exact Or.inl ⟨e, hl, by rw [hs]; rfl⟩
        · exact Or.inr ⟨q, .inserted :: os, t, hl, by rw [hs]; rfl, ht, hgrown hp hq,
            hgrown (hheld.trans hfree) hu⟩
      | unchanged =>
        have hput : u.put a = .ok (.unchanged, u) := by simp only [put, hheld, hj]
        rw [puts_cons hput]
        rcases lacking_puts as h with ⟨e, hl, hs⟩ | ⟨q, os, t, hl, hs, ht, hq, hu⟩
        · exact Or.inl ⟨e, hl, by rw [hs]; rfl⟩
        · exact Or.inr ⟨q, .unchanged :: os, t, hl, by rw [hs]; rfl, ht, hq, hu⟩

theorem putAll_puts (s : Store) (as : List Artifact) :
    (∃ e, s.putAll as = .error e ∧ s.puts as = .error e) ∨
      ∃ names os t, s.putAll as = .ok (names, t) ∧ s.puts as = .ok (os, t) ∧
        names.Pairwise (· < ·) ∧ names.Perm ((added as os).map (·.name)) ∧
        t.artifacts.Perm (added as os ++ s.artifacts) := by
  have hempty : s.Holds s empty := fun n => by rw [get?_empty, Option.or_none]
  rcases lacking_puts as hempty with ⟨e, hl, hs⟩ | ⟨q, os, t, hl, hs, ht, hq, hperm⟩
  · exact Or.inl ⟨e, by rw [putAll, hl], hs⟩
  · have hstored : s.insertAll q.artifacts = t := eq_of_get? fun n => by
      rw [get?_insertAll, ht n]
      rfl
    have hnames : q.artifacts.Perm (added as os) := by
      simpa [empty] using hq
    refine Or.inr ⟨q.names, os, t, ?_, hs, List.pairwise_map.mpr q.ascending, hnames.map _, hperm⟩
    rw [putAll, hl]
    simp only [hstored]

/-- Storing a list in one step is storing its artifacts one after the other, or nothing. It succeeds
just if each of them can be stored after those before it, leaves the same store and tells the names
that were new, in order and without repetition. Else the error is that of the first artifact that is
refused, and an engine keeps the store it had. A store shows each name once, in order, with the
artifact that is read under it. -/
theorem putAll_iff (s : Store) (as : List Artifact) :
    (∀ names t, s.putAll as = .ok (names, t) ↔ ∃ os, s.puts as = .ok (os, t) ∧
      names.Pairwise (· < ·) ∧ names.Perm ((added as os).map (·.name))) ∧
    (∀ e, s.putAll as = .error e ↔ ∃ before a after os u, as = before ++ a :: after ∧
      s.puts before = .ok (os, u) ∧ u.put a = .error e) ∧
    (∀ cfg (x : Engine.State) e, x.store = s → s.putAll as = .error e →
      x.act cfg (.putAll as) = some x) ∧
    (∀ os t, s.puts as = .ok (os, t) → t.artifacts.Perm (added as os ++ s.artifacts)) ∧
    s.artifacts.Pairwise (·.name < ·.name) ∧
    ∀ n a, s.get? n = some a ↔ a ∈ s.artifacts ∧ a.name = n := by
  have hkept : ∀ cfg (x : Engine.State) e, x.store = s → s.putAll as = .error e →
      x.act cfg (.putAll as) = some x := by
    rintro cfg x e rfl he
    simp only [Engine.State.act, he]
  have hshown : ∀ n a, s.get? n = some a ↔ a ∈ s.artifacts ∧ a.name = n := fun n a => get?_eq_some_iff
  simp only [← puts_eq_error_iff]
  rcases putAll_puts s as with ⟨e, hall, heach⟩ | ⟨names, os, t, hall, heach, hsorted, hnew, hperm⟩
  · rw [heach]
    refine ⟨fun names t => ?_, fun e' => by simp [hall], hkept, fun os t h => ?_, s.ascending, hshown⟩
    · simp [hall]
    · cases h
  · rw [heach]
    refine ⟨fun names' t' => ?_, fun e => by simp [hall], hkept, fun os' t' h => ?_, s.ascending, hshown⟩
    · rw [hall]
      constructor
      · intro h
        obtain ⟨rfl, rfl⟩ := Prod.mk.inj (Except.ok.inj h)
        exact ⟨os, rfl, hsorted, hnew⟩
      · rintro ⟨os', h, hs, hn⟩
        obtain ⟨rfl, rfl⟩ := Prod.mk.inj (Except.ok.inj h)
        rw [sorted_unique hs hsorted (hn.trans hnew.symm)]
    · obtain ⟨rfl, rfl⟩ := Prod.mk.inj (Except.ok.inj h)
      exact hperm

namespace Example

def artifact (text : String) (byte : UInt8) (h : Name.WellFormed text := by decide +kernel) : Artifact :=
  .plain ⟨text, h⟩ ⟨#[byte]⟩

def held : Store := empty.insert (artifact "h" 0)

end Example

open Example in
/-- A name that is listed twice is new once; another payload of it is refused, and then nothing of the
list is stored. -/
theorem putAll_iff_repeating :
    (∃ t, held.putAll [artifact "i" 0, artifact "g" 0, artifact "h" 0, artifact "g" 0] =
      .ok ([(artifact "g" 0).name, (artifact "i" 0).name], t)) ∧
    ∀ cfg (x : Engine.State), x.store = held →
      x.act cfg (.putAll [artifact "g" 0, artifact "g" 1]) = some x := by
  have hstored := putAll_iff held [artifact "i" 0, artifact "g" 0, artifact "h" 0, artifact "g" 0]
  have hrefused := putAll_iff held [artifact "g" 0, artifact "g" 1]
  refine ⟨⟨_, (hstored.1 _ _).mpr ⟨[.inserted, .inserted, .unchanged, .unchanged], rfl, ?_, ?_⟩⟩,
    fun cfg x hx => hrefused.2.2.1 cfg x _ hx ((hrefused.2.1 _).mpr
      ⟨[artifact "g" 0], artifact "g" 1, [], [.inserted], _, rfl, rfl, rfl⟩)⟩
  · decide +kernel
  · decide +kernel

end Store

end OnDemand
