import OnDemand.Store

/-!
# What the store keeps

A store as the map it stands for. Storing adds artifacts under names that had none and changes
nothing else (`get?_insert`, `get?_of_putAll`), so a name once stored stays with its artifact
(`Extends`). A list is refused only because of a payload (`putAll_of_agree`).
-/

namespace OnDemand

theorem find?_insertArtifact (a : Artifact) (n : Name) : ∀ {l : List Artifact},
    l.Pairwise (·.name < ·.name) →
    (insertArtifact a l).find? (·.name = n) =
      (l.find? (·.name = n)).or (if a.name = n then some a else none)
  | [], _ => by by_cases h : a.name = n <;> simp [insertArtifact, h]
  | b :: bs, h => by
    obtain ⟨hb, hs⟩ := List.pairwise_cons.mp h
    simp only [insertArtifact]
    by_cases hab : a.name < b.name
    · rw [if_pos hab]
      by_cases hn : a.name = n
      · -- every name of the list is greater than the new one
        have hnone : (b :: bs).find? (·.name = n) = none := by
          refine List.find?_eq_none.mpr fun x hx => ?_
          have hlt : a.name < x.name := by
            rcases List.mem_cons.mp hx with rfl | hx
            · exact hab
            · exact String.lt_trans hab (hb x hx)
          have hne : x.name ≠ n := by
            rintro rfl
            rw [hn] at hlt
            exact String.lt_irrefl _ hlt
          simpa using hne
        rw [hnone]
        simp [hn]
      · simp [List.find?_cons, hn]
    · rw [if_neg hab]
      by_cases hba : b.name < a.name
      · rw [if_pos hba, List.find?_cons, List.find?_cons, find?_insertArtifact a n hs]
        by_cases hn : b.name = n <;> simp [hn]
      · rw [if_neg hba]
        have hname : a.name = b.name :=
          Name.eq_of_text_eq (String.le_antisymm (String.not_lt.mp hba) (String.not_lt.mp hab))
        by_cases hn : a.name = n
        · simp [← hname, hn]
        · simp [hn]

namespace Store

variable {s t : Store} {a b : Artifact} {n : Name}

theorem get?_insert (s : Store) (a : Artifact) (n : Name) :
    (s.insert a).get? n = (s.get? n).or (if a.name = n then some a else none) :=
  find?_insertArtifact a n s.ascending

theorem get?_empty (n : Name) : empty.get? n = none := rfl

theorem name_of_get? (h : s.get? n = some a) : a.name = n := by
  simpa using List.find?_some h

theorem find?_of_mem : ∀ {l : List Artifact}, l.Pairwise (·.name < ·.name) → a ∈ l →
    l.find? (·.name = a.name) = some a
  | [], _, ha => by cases ha
  | b :: bs, hl, ha => by
    obtain ⟨hb, hs⟩ := List.pairwise_cons.mp hl
    rcases List.mem_cons.mp ha with rfl | ha
    · simp
    · have hne : b.name ≠ a.name := by
        intro h
        have hlt := hb a ha
        rw [h] at hlt
        exact String.lt_irrefl _ hlt
      rw [List.find?_cons_of_neg (by simpa using hne)]
      exact find?_of_mem hs ha

theorem mem_artifacts : a ∈ s.artifacts ↔ s.get? a.name = some a :=
  ⟨find?_of_mem s.ascending, List.mem_of_find?_eq_some⟩

theorem contains_of_get? (h : s.get? n = some a) : s.contains n = true := by
  simp [contains, h]

theorem mem_names : n ∈ s.names ↔ s.contains n = true := by
  simp [names, contains, get?, List.find?_isSome]

theorem get?_of_contains (h : s.contains n = true) : ∃ a, s.get? n = some a :=
  Option.isSome_iff_exists.mp h

/-! ## Growth -/

/-- All that `s` holds, `t` holds. -/
def Extends (t s : Store) : Prop :=
  ∀ n a, s.get? n = some a → t.get? n = some a

theorem Extends.refl (s : Store) : s.Extends s := fun _ _ h => h

theorem Extends.trans {r : Store} (h₁ : t.Extends s) (h₂ : r.Extends t) : r.Extends s :=
  fun n a h => h₂ n a (h₁ n a h)

theorem Extends.contains (h : t.Extends s) (hn : s.contains n = true) : t.contains n = true := by
  obtain ⟨a, ha⟩ := get?_of_contains hn
  exact contains_of_get? (h n a ha)

theorem extends_insert (s : Store) (a : Artifact) : (s.insert a).Extends s := by
  intro n b hb
  rw [get?_insert, hb, Option.some_or]

theorem get?_insertAll (n : Name) : ∀ (as : List Artifact) (s : Store),
    (s.insertAll as).get? n = (s.get? n).or (as.find? (·.name = n))
  | [], s => by simp [insertAll]
  | a :: as, s => by
    have ih := get?_insertAll n as (s.insert a)
    rw [insertAll, List.foldl_cons]
    rw [insertAll] at ih
    rw [ih, get?_insert, Option.or_assoc]
    by_cases hn : a.name = n <;> simp [hn]

theorem extends_insertAll (s : Store) (as : List Artifact) : (s.insertAll as).Extends s := by
  intro n a ha
  rw [get?_insertAll, ha, Option.some_or]

theorem extends_of_put {o : PutOutcome} (h : s.put a = .ok (o, t)) : t.Extends s := by
  unfold put at h
  split at h
  · obtain ⟨_, rfl⟩ := Prod.mk.inj (Except.ok.inj h)
    exact extends_insert s a
  · obtain ⟨_, rfl⟩ := Prod.mk.inj (Except.ok.inj h)
    exact .refl s
  · cases h

/-! ## Storing a list -/

theorem eq_none_of_judge {o : Option Artifact} (h : judge o a = .ok .inserted) : o = none := by
  unfold judge at h
  split at h
  · rfl
  · split at h <;> cases h

/-- What `lacking` collects: what was pending, and artifacts of the list whose names were free. -/
theorem get?_of_lacking (n : Name) : ∀ {as : List Artifact} {p q : Store},
    s.lacking p as = .ok q →
    q.get? n = (p.get? n).or (if (s.get? n).isSome then none else as.find? (·.name = n))
  | [], p, q, h => by
    obtain rfl : p = q := Except.ok.inj h
    simp
  | a :: as, p, q, h => by
    simp only [lacking] at h
    split at h
    · rename_i hj
      -- nothing of that name was stored or pending
      obtain ⟨hs, hp⟩ : s.get? a.name = none ∧ p.get? a.name = none := by
        simpa [Option.or_eq_none_iff] using eq_none_of_judge hj
      rw [get?_of_lacking n h, get?_insert, Option.or_assoc]
      by_cases hn : a.name = n
      · subst hn
        simp [hs, hp]
      · simp [hn]
    · rename_i hj
      have htaken : ((s.get? a.name).or (p.get? a.name)).isSome := by
        unfold judge at hj
        split at hj
        · cases hj
        · rename_i hb
          rw [hb]
          rfl
      rw [get?_of_lacking n h]
      by_cases hn : a.name = n
      · subst hn
        cases hs : s.get? a.name with
        | some b => simp
        | none =>
          rw [hs, Option.none_or] at htaken
          obtain ⟨b, hb⟩ := Option.isSome_iff_exists.mp htaken
          simp [hb]
      · simp [hn]
    · cases h

/-- Storing a list adds the first artifact of each name that had none. -/
theorem get?_of_putAll {as : List Artifact} {names : List Name} (h : s.putAll as = .ok (names, t))
    (n : Name) : t.get? n = (s.get? n).or (as.find? (·.name = n)) := by
  unfold putAll at h
  split at h
  · rename_i q hq
    obtain ⟨_, rfl⟩ := Prod.mk.inj (Except.ok.inj h)
    rw [get?_insertAll]
    have hfind : q.artifacts.find? (·.name = n) = q.get? n := rfl
    rw [hfind, get?_of_lacking n hq, get?_empty, Option.none_or]
    cases hs : s.get? n <;> simp
  · cases h

theorem names_of_putAll {as : List Artifact} {names : List Name} (h : s.putAll as = .ok (names, t)) :
    names.Pairwise (· < ·) ∧ ∀ n, n ∈ names ↔ s.get? n = none ∧ ∃ a ∈ as, a.name = n := by
  unfold putAll at h
  split at h
  · rename_i q hq
    obtain ⟨rfl, -⟩ := Prod.mk.inj (Except.ok.inj h)
    refine ⟨List.pairwise_map.mpr q.ascending, fun n => ?_⟩
    rw [mem_names, contains, get?_of_lacking n hq, get?_empty, Option.none_or]
    cases hs : s.get? n with
    | none => simp [List.find?_isSome]
    | some b => simp
  · cases h

theorem extends_of_putAll {as : List Artifact} {names : List Name}
    (h : s.putAll as = .ok (names, t)) : t.Extends s := by
  intro n a ha
  rw [get?_of_putAll h, ha, Option.some_or]

theorem contains_of_putAll {as : List Artifact} {names : List Name}
    (h : s.putAll as = .ok (names, t)) (ha : a ∈ as) : t.contains a.name = true := by
  rw [contains, get?_of_putAll h]
  have : (as.find? (·.name = a.name)).isSome := by
    rw [List.find?_isSome]
    exact ⟨a, ha, by simp⟩
  simp [this]

/-! ## Agreement on payloads -/

/-- Each artifact of a store has the payload that `payload` gives to its name. -/
def Agrees (payload : Name → ByteArray) (s : Store) : Prop :=
  ∀ n a, s.get? n = some a → a.payload = payload n

variable {payload : Name → ByteArray}

theorem agrees_empty : empty.Agrees payload := by
  intro n a h
  cases h

theorem Agrees.insert (hs : s.Agrees payload) (ha : a.payload = payload a.name) :
    (s.insert a).Agrees payload := by
  intro n b hb
  rw [get?_insert] at hb
  rcases Option.or_eq_some_iff.mp hb with hb | ⟨_, hb⟩
  · exact hs n b hb
  · split at hb
    · rename_i hn
      obtain rfl := Option.some.inj hb
      rw [← hn]
      exact ha
    · cases hb

theorem agrees_of_put {o : PutOutcome} (h : s.put a = .ok (o, t)) (hs : s.Agrees payload)
    (ha : a.payload = payload a.name) : t.Agrees payload := by
  unfold put at h
  split at h
  · obtain ⟨_, rfl⟩ := Prod.mk.inj (Except.ok.inj h)
    exact hs.insert ha
  · obtain ⟨_, rfl⟩ := Prod.mk.inj (Except.ok.inj h)
    exact hs
  · cases h

theorem judge_of_agrees {o : Option Artifact} (ha : a.payload = payload a.name)
    (hb : ∀ b, o = some b → b.payload = payload a.name) :
    judge o a = .ok (if o.isNone then .inserted else .unchanged) := by
  cases o with
  | none => rfl
  | some b => simp [judge, hb b rfl, ha]

theorem lacking_of_agrees (hs : s.Agrees payload) : ∀ {as : List Artifact} {p : Store},
    p.Agrees payload → (∀ a ∈ as, a.payload = payload a.name) → ∃ q, s.lacking p as = .ok q
  | [], p, _, _ => ⟨p, rfl⟩
  | a :: as, p, hp, has => by
    have ha := has a (by simp)
    have hj := judge_of_agrees (o := (s.get? a.name).or (p.get? a.name)) ha (by
      intro b hb
      rcases Option.or_eq_some_iff.mp hb with hb | ⟨_, hb⟩
      · exact hs _ b hb
      · exact hp _ b hb)
    have has' : ∀ a ∈ as, a.payload = payload a.name := fun b hb => has b (by simp [hb])
    simp only [lacking, hj]
    split
    · exact lacking_of_agrees hs (hp.insert ha) has'
    · exact lacking_of_agrees hs hp has'
    · rename_i hc
      cases hc

theorem putAll_of_agrees {as : List Artifact} (hs : s.Agrees payload)
    (has : ∀ a ∈ as, a.payload = payload a.name) : ∃ names t, s.putAll as = .ok (names, t) := by
  obtain ⟨q, hq⟩ := lacking_of_agrees hs agrees_empty has
  exact ⟨q.names, s.insertAll q.artifacts, by simp [putAll, hq]⟩

theorem agrees_of_putAll {as : List Artifact} {names : List Name}
    (h : s.putAll as = .ok (names, t)) (hs : s.Agrees payload)
    (has : ∀ a ∈ as, a.payload = payload a.name) : t.Agrees payload := by
  intro n b hb
  rw [get?_of_putAll h] at hb
  rcases Option.or_eq_some_iff.mp hb with hb | ⟨_, hb⟩
  · exact hs n b hb
  · have hn : b.name = n := by simpa using List.find?_some hb
    rw [← hn]
    exact has b (List.mem_of_find?_eq_some hb)

end Store

end OnDemand
