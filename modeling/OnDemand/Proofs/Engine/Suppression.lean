import OnDemand.Proofs.Engine.Lone

/-!
# Fetches while a failure is remembered

A lookup that finds the failure of its name remembered answers with it and does not go to the
repository. It looks once, before it claims the name, and not again when it has claimed it: so while
the failure is remembered, who still goes to the repository has looked before it was recorded
(`fetch_overtaken`), and there are such lookups (`remembered_fetched`).
-/

namespace OnDemand.Engine

open State

def State.held? (s : State) (n : Name) : Option Failure :=
  s.failures.bind (·.find? n)

def Notes (past : List (State × Action)) (n : Name) : Prop :=
  ∃ u j g e, (u, .advance j) ∈ past ∧ u.calls[j]? = some (.recording n g (.failed e)) ∧
    e.isLasting = true

/-- Call `i` has looked for a failure of `n` and found none remembered, and then these moves were
made. -/
def SoughtBefore (past : List (State × Action)) (i : Nat) (n : Name)
    (after : List (State × Action)) : Prop :=
  ∃ before u limits, past = before ++ (u, .advance i) :: after ∧
    u.calls[i]? = some (.remembering n limits) ∧ u.remembered? u.now n = none

/-- The name that a lookup has looked for a failure of and is about to claim or to fetch. -/
def Stage.bound? : Stage → Option Name
  | claiming n _ => some n
  | departing n _ _ => some n
  | _ => none

section
variable {cfg : Settings} {s₀ s t u : State} {a : Action} {i : Nat} {n : Name}
  {past after : List (State × Action)} {st st' : Stage} {now : Moment} {store : Store}
  {ttl : Option Duration}

theorem State.held?_of_remembered {m : Moment} {e : CallError} (h : s.remembered? m n = some e) :
    s.held? n ≠ none := by
  intro hnone
  cases hf : s.failures with
  | none =>
    rw [State.remembered?, hf] at h
    cases h
  | some f =>
    rw [State.held?, hf, Option.bind_some] at hnone
    rw [State.remembered?, hf, Option.bind_some, Failures.lookup, hnone] at h
    cases h

theorem State.held?_congr (h : t.failures = s.failures) : t.held? n = s.held? n := by
  rw [State.held?, State.held?, h]

theorem State.held?_map {F : Failures → Failures} (hF : ∀ f, f.find? n = none → (F f).find? n = none)
    (h : s.held? n = none) (ht : t.failures = s.failures.map F) : t.held? n = none := by
  rw [State.held?] at h ⊢
  rw [ht]
  cases hf : s.failures with
  | none => rfl
  | some f =>
    rw [hf, Option.bind_some] at h
    exact hF f h

theorem held?_record {r : Resolution} {n' : Name} (h : s.held? n = none) :
    (s.record n' r).1.held? n = none ∨ n' = n ∧ ∃ e, r = .failed e ∧ e.isLasting = true := by
  by_cases hn : n' = n
  · by_cases hr : ∃ e, r = .failed e ∧ e.isLasting = true
    · exact Or.inr ⟨hn, hr⟩
    · refine Or.inl ?_
      unfold State.record
      split
      · rename_i f e hf
        have he : e.isLasting = false := by simpa using fun he => hr ⟨e, rfl, he⟩
        rw [Failures.record_of_not_lasting f s.now n' he]
        exact (held?_congr hf).symm.trans h
      · exact h
  · refine Or.inl ?_
    unfold State.record
    split
    · rename_i f e hf
      rw [State.held?, hf, Option.bind_some] at h
      have hrec := Failures.find?_record_of_ne h hn s.now e
      split <;> rename_i heq <;> rw [heq] at hrec <;> exact hrec
    · exact h

theorem act_held (h : s.act cfg a = some t) (hn : s.held? n = none) :
    t.held? n = none ∨ Notes [(s, a)] n := by
  have hsteady : s.Steady t → t.held? n = none ∨ Notes [(s, a)] n := fun hs =>
    Or.inl ((held?_congr hs.failures).trans hn)
  cases a with
  | advance i =>
    obtain ⟨st, hi, hm⟩ := Option.bind_eq_some_iff.mp h
    obtain ⟨r, hr, rfl⟩ := Option.map_eq_some_iff.mp hm
    -- two stages touch what is remembered, and one of them only drops entries
    by_cases hst : st.Remembers
    · cases st with
      | remembering n' limits =>
        obtain ⟨-, -, hlooked, -⟩ := (callMove_of_advance hr).looks
        exact Or.inl (held?_map (fun f hf => Failures.find?_lookup hf s.now n') hn hlooked)
      | recording n' g r' =>
        obtain rfl := Option.some.inj hr
        have hrec : (s.record n' r').1.held? n = none ∨ _ := held?_record hn
        refine hrec.imp_right ?_
        rintro ⟨rfl, e, rfl, he⟩
        exact ⟨s, i, g, e, by simp, hi, he⟩
      | _ => exact hst.elim
    · exact hsteady ((steady_advance hr hst).setCall i r.2)
  | put x =>
    simp only [act] at h
    split at h <;> exact hsteady (Option.some.inj h ▸ ⟨rfl, rfl⟩)
  | putAll xs =>
    simp only [act] at h
    split at h <;> exact hsteady (Option.some.inj h ▸ ⟨rfl, rfl⟩)
  | forget n' =>
    obtain rfl := Option.some.inj h
    refine Or.inl (held?_map (F := fun f => (f.forget n').2) (fun f hf => ?_) hn rfl)
    exact Failures.find?_of_subset hf fun x hx => (List.mem_filter.mp hx).1
  | clearFailures =>
    obtain rfl := Option.some.inj h
    exact Or.inl (held?_map (F := .clear) (fun f _ => rfl) hn rfl)
  | call r =>
    obtain rfl := Option.some.inj h
    exact Or.inl hn
  | elapse nanos =>
    obtain rfl := Option.some.inj h
    exact Or.inl hn
  | _ => exact hsteady (act_steady h rfl fun j _ hj => by cases hj)

/-! ## Since the look -/

theorem bound?_afterBatch (n' : Name) (g : Guard) (next : BatchStage ⊕ BatchEnd) :
    (afterBatch n' g next).bound? = none := by
  rcases next with b | e
  · rfl
  · cases e <;> rfl

theorem bound?_afterOwnBatch (next : BatchStage ⊕ BatchEnd) : (afterOwnBatch next).bound? = none := by
  rcases next with b | e <;> rfl

theorem CallMove.bound (h : CallMove cfg s i a st u st') (hst : st'.bound? = some n) :
    st.bound? = some n ∨
      a = .advance i ∧ (∃ limits, st = .remembering n limits) ∧ s.remembered? s.now n = none ∧
        u.held? n = none := by
  cases h with
  | forgetful hf =>
    obtain rfl := Option.some.inj hst
    refine Or.inr ⟨rfl, ⟨_, rfl⟩, ?_, ?_⟩
    · rw [State.remembered?, hf, Option.bind_none]
    · rw [State.held?, hf, Option.bind_none]
  | forgotten hf hl =>
    obtain rfl := Option.some.inj hst
    refine Or.inr ⟨rfl, ⟨_, rfl⟩, ?_, Failures.find?_of_lookup hl⟩
    rw [State.remembered?, hf, Option.bind_some, hl]
  | lead => exact Or.inl hst
  | compile =>
    rw [bound?_afterBatch] at hst
    cases hst
  | own =>
    rw [bound?_afterOwnBatch] at hst
    cases hst
  | _ => cases hst

theorem SoughtBefore.append (h : SoughtBefore past i n after) (p : State × Action) :
    SoughtBefore (past ++ [p]) i n (after ++ [p]) := by
  obtain ⟨before, u, limits, rfl, hrest⟩ := h
  exact ⟨before, u, limits, by simp, hrest⟩

theorem Notes.append (h : Notes past n) (after : List (State × Action)) : Notes (past ++ after) n := by
  obtain ⟨u, j, g, e, hu, hrest⟩ := h
  exact ⟨u, j, g, e, List.mem_append_left _ hu, hrest⟩

/-- Since its look, no failure of the name is held until one is recorded. -/
theorem Run.sought (h : Run cfg s₀ past s) (h₀ : s₀.calls = []) (hi : s.view Stage.bound? i = some n) :
    ∃ after, SoughtBefore past i n after ∧ (s.held? n = none ∨ Notes after n) := by
  induction h with
  | start =>
    rw [State.view, h₀] at hi
    cases hi
  | @step past s a t _ ha ih =>
    have hgo : s.view Stage.bound? i = some n →
        ∃ after, SoughtBefore (past ++ [(s, a)]) i n after ∧ (t.held? n = none ∨ Notes after n) := by
      intro hs
      obtain ⟨after, hsought, hor⟩ := ih hs
      refine ⟨after ++ [(s, a)], hsought.append _, ?_⟩
      rcases hor with hnone | hnotes
      · rcases act_held ha hnone with hheld | ⟨u, j, g, e, hu, hrest⟩
        · exact Or.inl hheld
        · exact Or.inr ⟨u, j, g, e, List.mem_append_right _ hu, hrest⟩
      · exact Or.inr (hnotes.append _)
    -- the call looked before this move, or looks in it
    obtain ⟨st', ht, hst'⟩ := view_eq_some.mp hi
    rcases (step_of_act ha).call_after ht with hs | ⟨-, r, -, rfl⟩ | ⟨st, u, hs, hm, rfl⟩
    · exact hgo ((view_of_call hs).trans hst')
    · cases r <;> cases hst'
    · rcases hm.bound hst' with hst | ⟨rfl, ⟨limits, rfl⟩, hlook, hheld⟩
      · exact hgo ((view_of_call hs).trans hst)
      · exact ⟨[], ⟨past, s, limits, rfl, hs, hlook⟩, Or.inl hheld⟩

/-- A lookup that goes to the repository for a name has looked for a failure of it and found none
remembered; and if one is remembered by now, a lookup has recorded one since that look. -/
theorem fetch_overtaken (h : Run cfg (.fresh now store ttl) past s)
    (hi : s.fetch? (.advance i) = some n) :
    ∃ after, SoughtBefore past i n after ∧
      ∀ e, s.remembered? s.now n = some e → Notes after n := by
  have hbound : s.view Stage.bound? i = some n := by
    obtain ⟨st, hs, hst⟩ := view_eq_some.mp hi
    rw [view_of_call hs]
    cases st with
    | departing => exact hst
    | _ => cases hst
  obtain ⟨after, hsought, hor⟩ := h.sought rfl hbound
  exact ⟨after, hsought, fun e he => hor.resolve_left (held?_of_remembered he)⟩

end

/-- Two lookups of `x` look for a failure. The first goes to the repository in vain, records this and
ends its flight; then the second claims the name. -/
def lagging : List Action :=
  List.flatten
    [[.call (.resolve Sample.x .unbounded), .call (.resolve Sample.x .unbounded)],
      List.replicate 5 (.advance 0), List.replicate 3 (.advance 1), [.fetched 0 .missing],
      List.replicate 3 (.advance 0), [.advance 1]]

/-- A lookup goes to the repository for a name of which a failure is remembered. -/
theorem remembered_fetched :
    ∃ past s, Run Sample.settings (.fresh 0 .empty (some ⟨5, by decide⟩)) past s ∧
      s.fetch? (.advance 1) = some Sample.x ∧ (s.remembered? s.now Sample.x).isSome := by
  have hperform :
      ((State.fresh 0 .empty (some ⟨5, by decide⟩)).perform Sample.settings lagging).any fun r =>
        r.2.fetch? (.advance 1) = some Sample.x ∧ (r.2.remembered? r.2.now Sample.x).isSome := by
    decide +kernel
  exact Run.of_any hperform

end OnDemand.Engine
