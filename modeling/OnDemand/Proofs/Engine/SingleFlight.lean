import OnDemand.Proofs.Engine.Holding

/-!
# Lookups share one flight

A call leads for a name from its claim until it takes the name out of the table, and its flight stays
pending for one move more. One call leads for a name at a time, everyone else who wants the name
follows it and answers what it answers, and a stored name gets no new leader. A new leader can come
before the flight of the last one has landed (`attempts_overlap`); of the last one nothing is left
then but to land it.
-/

namespace OnDemand.Engine

open State FlightTable

variable {cfg : Settings} {s t : State} {a : Action} {i j f : Nat} {m n : Name}

/-! ## Attempts -/

namespace Stage

/-- The name that a lookup fetches and compiles, and the flight it leads for it. -/
def attempt? : Stage → Option (Name × Nat)
  | departing n _ g => some (n, g.flight)
  | fetching n _ g _ => some (n, g.flight)
  | compiling n g _ => some (n, g.flight)
  | rechecking n g => some (n, g.flight)
  | recording n g _ => some (n, g.flight)
  | releasing g _ => g.names.head?.map (·, g.flight)
  | _ => none

/-- The name that a lookup has claimed, and the flight that it has still to end. -/
def pursuit? : Stage → Option (Name × Nat)
  | landing g _ => g.names.head?.map (·, g.flight)
  | st => st.attempt?

/-- A lookup that has a flight has claimed one name for it, the one it looks up. -/
def Sole : Stage → Prop
  | departing n _ g => g.names = [n]
  | fetching n _ g _ => g.names = [n]
  | compiling n g _ => g.names = [n]
  | rechecking n g => g.names = [n]
  | recording n g _ => g.names = [n]
  | releasing g _ => ∃ n, g.names = [n]
  | landing g _ => ∃ n, g.names = [n]
  | _ => True

theorem sole_guard {g : Guard} (h : g.names = [m]) :
    some (m, g.flight) = some (n, f) ↔ Has (some g) n f := by
  rw [has_some, h, List.mem_singleton, Option.some.injEq, Prod.mk.injEq, and_comm, eq_comm (a := m)]

theorem attempt?_iff {st : Stage} (h : st.Sole) :
    st.attempt? = some (n, f) ↔ Has st.lookupGuard? n f := by
  cases st with
  | departing => exact sole_guard h
  | fetching => exact sole_guard h
  | compiling => exact sole_guard h
  | rechecking => exact sole_guard h
  | recording => exact sole_guard h
  | releasing g _ =>
    obtain ⟨m, hm⟩ := h
    rw [attempt?, hm]
    exact sole_guard hm
  | landing => simp [attempt?, lookupGuard?, has_some]
  | _ => simp [attempt?, lookupGuard?, not_has_none]

theorem attempt?_or_landing {st : Stage} (h : st.pursuit? = some (n, f)) :
    st.attempt? = some (n, f) ∨ ∃ g e, st = landing g e ∧ g.flight = f := by
  cases st with
  | landing g e =>
    obtain ⟨m, -, hm⟩ := Option.map_eq_some_iff.mp h
    exact Or.inr ⟨g, e, rfl, (Prod.mk.inj hm).2⟩
  | _ => exact Or.inl h

theorem pursuit?_of_attempt? {st : Stage} (h : st.attempt? = some (n, f)) :
    st.pursuit? = some (n, f) := by
  cases st with
  | landing => cases h
  | _ => exact h

theorem lookupGuard?_of_pursuit? {st : Stage} (h : st.pursuit? = some (n, f)) :
    ∃ γ, st.lookupGuard? = some γ ∧ γ.flight = f := by
  cases st with
  | departing | fetching | compiling | rechecking | recording =>
    exact ⟨_, rfl, (Prod.mk.inj (Option.some.inj h)).2⟩
  | releasing | landing =>
    obtain ⟨m, -, hm⟩ := Option.map_eq_some_iff.mp h
    exact ⟨_, rfl, (Prod.mk.inj hm).2⟩
  | _ => cases h

theorem sole_afterBatch {g : Guard} (h : g.names = [n]) (next : BatchStage ⊕ BatchEnd) :
    (afterBatch n g next).Sole := by
  rcases next with b | e
  · exact h
  · cases e with
    | reported r => exact h
    | failed e => exact h
    | overflowed o => exact ⟨n, h⟩

theorem sole_afterOwnBatch (next : BatchStage ⊕ BatchEnd) : (afterOwnBatch next).Sole := by
  rcases next with b | e <;> exact trivial

end Stage

theorem CallMove.sole {st st' : Stage} (h : CallMove cfg s i a st t st') (hs : st.Sole) :
    st'.Sole := by
  cases h with
  | lead => exact rfl
  | depart => exact hs
  | compile => exact Stage.sole_afterBatch hs _
  | recheck => exact hs
  | record => exact ⟨_, hs⟩
  | release => exact hs
  | own => exact Stage.sole_afterOwnBatch _
  | expireFetch => exact hs
  | fetched => exact hs
  | unfetched => exact hs
  | _ => exact trivial

theorem attempt?_afterBatch {g : Guard} (h : g.names = [n]) (next : BatchStage ⊕ BatchEnd) :
    (afterBatch n g next).attempt? = some (n, g.flight) := by
  rcases next with b | e
  · rfl
  · cases e with
    | reported r => rfl
    | failed e => rfl
    | overflowed o => simp [afterBatch, Stage.attempt?, h]

theorem attempt?_afterOwnBatch (next : BatchStage ⊕ BatchEnd) :
    (afterOwnBatch next).attempt? = none := by
  rcases next with b | e <;> rfl

/-- A lookup that makes an attempt has made it before, or begins it for a name that is not stored,
as the leader of a new flight. -/
theorem CallMove.attempt {st st' : Stage} (h : CallMove cfg s i a st t st') (hs : st.Sole)
    (ha : st'.attempt? = some (n, f)) :
    st.attempt? = some (n, f) ∨ (s.store.contains n = false ∧ f = s.resolving.begin.1) := by
  cases h with
  | lead _ hn =>
    obtain ⟨rfl, rfl⟩ := Prod.mk.inj (Option.some.inj ha)
    exact Or.inr ⟨hn, rfl⟩
  | depart => exact Or.inl ha
  | compile =>
    rw [attempt?_afterBatch hs] at ha
    exact Or.inl ha
  | recheck => exact Or.inl ha
  | @record m g r =>
    refine Or.inl (Eq.trans ?_ ha)
    simp [Stage.attempt?, show g.names = [m] from hs]
  | own =>
    rw [attempt?_afterOwnBatch] at ha
    cases ha
  | expireFetch => exact Or.inl ha
  | fetched => exact Or.inl ha
  | unfetched => exact Or.inl ha
  | _ => cases ha

/-! ## Leaders -/

/-- `s.Leads i n f`: call `i` leads the flight `f` for the name `n`. -/
def State.Leads (s : State) (i : Nat) (n : Name) (f : Nat) : Prop :=
  s.view Stage.attempt? i = some (n, f)

/-- `s.Pursues i n f`: call `i` has claimed the name `n`, and has not yet ended its flight `f`. -/
def State.Pursues (s : State) (i : Nat) (n : Name) (f : Nat) : Prop :=
  s.view Stage.pursuit? i = some (n, f)

def SoleCalls (s : State) : Prop :=
  ∀ (i : Nat) st, s.calls[i]? = some st → st.Sole

theorem SoleCalls.step (h : SoleCalls s) (hst : Step cfg s a t) : SoleCalls t :=
  hst.stages (fun r => by cases r <;> exact trivial) (fun hm hs => hm.sole hs) h

theorem SoleCalls.leads_iff (h : SoleCalls s) :
    s.Leads i n f ↔ Has (s.view Stage.lookupGuard? i) n f := by
  rw [Leads, State.view, State.view]
  cases hi : s.calls[i]? with
  | none => simp [not_has_none]
  | some st => exact Stage.attempt?_iff (h i st hi)

theorem Step.leads (h : Step cfg s a t) (hs : SoleCalls s) (hl : t.Leads i n f) :
    s.Leads i n f ∨ (s.store.contains n = false ∧ f = s.resolving.begin.1) := by
  obtain ⟨st', hi, ha⟩ := view_eq_some.mp hl
  rcases h.call_after hi with hi | ⟨-, r, -, rfl⟩ | ⟨st, u, hi, hm, -⟩
  · exact Or.inl ((view_of_call hi).trans ha)
  · cases r <;> cases ha
  · rcases hm.attempt (hs i st hi) ha with ha | hnew
    · exact Or.inl ((view_of_call hi).trans ha)
    · exact Or.inr hnew

section
variable {now : Moment} {store : Store} {ttl : Option Duration} {past : List (State × Action)}
  {u v : State}

theorem soleCalls_fresh : SoleCalls (.fresh now store ttl) := by
  intro i st hi
  simp [State.fresh] at hi

theorem Run.soleCalls (h : Run cfg (.fresh now store ttl) past s) : SoleCalls s :=
  h.invariant SoleCalls.step soleCalls_fresh

theorem Step.flights_length (h : Step cfg s a t) :
    s.resolving.flights.length ≤ t.resolving.flights.length := by
  cases h with
  | move hc hm => exact hm.resolving.flights_length
  | launch _ _ hq => exact Nat.le_of_eq (congrArg (·.flights.length) hq.resolving.symm)
  | quiet _ hq => exact Nat.le_of_eq (congrArg (·.flights.length) hq.resolving.symm)
  | _ => exact Nat.le_refl _

theorem Run.leads_lt (h : Run cfg (.fresh now store ttl) past s) (hu : u ∈ visited past s)
    (hl : u.Leads i n f) : f < s.resolving.flights.length := by
  have hsole : SoleCalls u := h.invariant_visited SoleCalls.step soleCalls_fresh hu
  have horder : Orderly u := h.invariant_visited Orderly.step (orderly_fresh _ _ _) hu
  obtain ⟨γ, hγ, rfl, -⟩ := hsole.leads_iff.mp hl
  obtain ⟨hlt, -⟩ := List.getElem?_eq_some_iff.mp (horder.lookups.pending hγ)
  exact Nat.lt_of_lt_of_le hlt (h.since
    (R := fun s t => s.resolving.flights.length ≤ t.resolving.flights.length)
    Step.flights_length (fun _ => Nat.le_refl _) Nat.le_trans hu)

/-- A flight has one leader in the whole run, which leads it for one name. -/
theorem Run.leads_once (h : Run cfg (.fresh now store ttl) past s) :
    ∀ {u v : State} {i j : Nat} {m n : Name}, u ∈ visited past s → v ∈ visited past s →
      u.Leads i m f → v.Leads j n f → i = j ∧ m = n := by
  induction h with
  | start =>
    intro u v i j m n hu _ hl
    obtain rfl := List.mem_singleton.mp hu
    rw [Leads, view_fresh] at hl
    cases hl
  | @step past s a t hr ha ih =>
    have hst := step_of_act ha
    have hrun : Run cfg (.fresh now store ttl) (past ++ [(s, a)]) t := .step hr ha
    -- a leader has led already before the last move, or leads the flight that this move began
    have hold : ∀ {u : State} {i : Nat} {n : Name}, u ∈ visited (past ++ [(s, a)]) t →
        u.Leads i n f → (∃ v ∈ visited past s, v.Leads i n f) ∨
          (u = t ∧ f = s.resolving.begin.1) := by
      intro u i n hu hl
      rcases mem_visited_step.mp hu with hu | rfl
      · exact Or.inl ⟨u, hu, hl⟩
      · rcases hst.leads hr.soleCalls hl with hl | ⟨-, hf⟩
        · exact Or.inl ⟨s, mem_visited.mpr (Or.inl rfl), hl⟩
        · exact Or.inr ⟨rfl, hf⟩
    intro u v i j m n hu hv hl hl'
    rcases hold hu hl with ⟨u', hu', hlu⟩ | ⟨rfl, hf⟩ <;> rcases hold hv hl' with ⟨v', hv', hlv⟩ | ⟨rfl, hf'⟩
    · exact ih hu' hv' hlu hlv
    · have := hr.leads_lt hu' hlu
      exact absurd hf' (Nat.ne_of_lt this)
    · have := hr.leads_lt hv' hlv
      exact absurd hf (Nat.ne_of_lt this)
    · obtain ⟨γ, hγ, hγf, -⟩ := hrun.soleCalls.leads_iff.mp hl
      obtain ⟨δ, hδ, hδf, -⟩ := hrun.soleCalls.leads_iff.mp hl'
      obtain rfl := hrun.orderly.lookups.apart hγ hδ (hγf.trans hδf.symm)
      exact ⟨rfl, (Prod.mk.inj (Option.some.inj (hl.symm.trans hl'))).1⟩

theorem Run.leads_unique (h : Run cfg (.fresh now store ttl) past s) {f' : Nat}
    (hi : s.Leads i n f) (hj : s.Leads j n f') : i = j :=
  h.orderly.lookups.once (h.soleCalls.leads_iff.mp hi) (h.soleCalls.leads_iff.mp hj)

theorem Run.leads_before (h : Run cfg (.fresh now store ttl) past s) :
    ∀ {u : State}, u ∈ visited past s → u.store.contains n = true → s.Leads i n f →
      u.Leads i n f := by
  induction h with
  | start =>
    intro u hu _ hl
    obtain rfl := List.mem_singleton.mp hu
    exact hl
  | @step past s a t hr ha ih =>
    intro u hu hn hl
    rcases mem_visited_step.mp hu with hu | rfl
    · rcases (step_of_act ha).leads hr.soleCalls hl with hl | ⟨hfree, -⟩
      · exact ih hu hn hl
      · have hstored := (hr.extends hu).contains hn
        rw [hfree] at hstored
        cases hstored
    · exact hl

end

/-! ## What becomes of a leader -/

/-- A call has a flight that it has not ended. -/
def State.Flies (s : State) (j f : Nat) : Prop :=
  ∃ γ, s.view Stage.lookupGuard? j = some γ ∧ γ.flight = f

theorem State.Pursues.flies (h : s.Pursues j n f) : s.Flies j f := by
  obtain ⟨st, hj, hst⟩ := view_eq_some.mp h
  obtain ⟨γ, hγ, hf⟩ := Stage.lookupGuard?_of_pursuit? hst
  exact ⟨γ, (view_of_call hj).trans hγ, hf⟩

def State.HasLanded (s : State) (j f : Nat) : Prop :=
  ∃ e, s.calls[j]? = some (.finished (.lookup e)) ∧ s.resolving.flight? f = some (lookupFlight e)

theorem CallMove.pursuit {st st' : Stage} (h : CallMove cfg s i a st t st') (hs : st.Sole)
    (hp : st.pursuit? = some (n, f)) :
    st'.pursuit? = some (n, f) ∨
      ∃ e, st' = .finished (.lookup e) ∧ t.resolving = s.resolving.settle f (lookupFlight e) := by
  cases h with
  | depart => exact Or.inl hp
  | compile =>
    obtain ⟨rfl, rfl⟩ := Prod.mk.inj (Option.some.inj hp)
    exact Or.inl (Stage.pursuit?_of_attempt? (attempt?_afterBatch hs _))
  | recheck => exact Or.inl hp
  | @record m g r =>
    obtain ⟨rfl, rfl⟩ := Prod.mk.inj (Option.some.inj hp)
    exact Or.inl (Stage.pursuit?_of_attempt? (by simp [Stage.attempt?, show g.names = [m] from hs]))
  | release => exact Or.inl hp
  | land =>
    obtain ⟨m, -, hm⟩ := Option.map_eq_some_iff.mp hp
    obtain ⟨-, rfl⟩ := Prod.mk.inj hm
    exact Or.inr ⟨_, rfl, rfl⟩
  | expireFetch => exact Or.inl hp
  | fetched => exact Or.inl hp
  | unfetched => exact Or.inl hp
  | _ => cases hp

theorem Step.flight?_ended (h : Step cfg s a t) {o : Flight Resolution}
    (hf : s.resolving.flight? f = some o) (ho : o ≠ .pending) :
    t.resolving.flight? f = some o := by
  cases h with
  | move hc hm => exact hm.resolving.flight?_ended hf ho
  | launch _ _ hq =>
    rw [State.setJob_resolving, hq.resolving]
    exact hf
  | quiet _ hq =>
    rw [hq.resolving]
    exact hf
  | _ => exact hf

theorem Step.finished {answer : Answer} (h : Step cfg s a t)
    (hi : s.calls[i]? = some (.finished answer)) : t.calls[i]? = some (.finished answer) := by
  rcases h.call_before hi with ⟨-, hi⟩ | ⟨u, st', hm, -⟩
  · exact hi
  · cases hm

theorem Orderly.pending_of_pursues (h : Orderly s) (hp : s.Pursues j n f) :
    s.resolving.flight? f = some .pending := by
  obtain ⟨γ, hγ, rfl⟩ := hp.flies
  exact h.lookups.pending hγ

theorem Step.fate (h : Step cfg s a t) (hs : Orderly s) (hsole : SoleCalls s)
    (hj : s.Pursues j n f ∨ s.HasLanded j f) : t.Pursues j n f ∨ t.HasLanded j f := by
  rcases hj with hp | ⟨e, hj, hf⟩
  · obtain ⟨st, hj, hst⟩ := view_eq_some.mp hp
    rcases h.call_before hj with ⟨-, hj'⟩ | ⟨u, st', hm, rfl, hj'⟩
    · exact Or.inl ((view_of_call hj').trans hst)
    · rcases hm.pursuit (hsole j st hj) hst with hst' | ⟨e, rfl, hu⟩
      · exact Or.inl ((view_of_call hj').trans hst')
      · refine Or.inr ⟨e, hj', ?_⟩
        rw [State.setCall_resolving, hu]
        exact flight?_settle_self _ (hs.pending_of_pursues hp)
  · exact Or.inr ⟨e, h.finished hj, h.flight?_ended hf (lookupFlight_ne_pending e)⟩

/-- In its next move the call answers and its flight ends with the answer. -/
def State.Lands (cfg : Settings) (s : State) (j f : Nat) : Prop :=
  ∃ t, s.act cfg (.advance j) = some t ∧ t.HasLanded j f

theorem Orderly.lands_of_landing (h : Orderly s) {g : Guard} {e : LookupEnd}
    (hj : s.calls[j]? = some (.landing g e)) : s.Lands cfg j g.flight := by
  have hf : s.resolving.flight? g.flight = some .pending :=
    h.lookups.pending (γ := ⟨g.flight, []⟩) (view_of_call hj)
  refine ⟨{ s with resolving := s.resolving.settle g.flight (lookupFlight e) }.setCall j
    (.finished (.lookup e)), ?_, e, ?_, flight?_settle_self _ hf⟩
  · simp [act, hj, State.advance, moveCall]
  · exact (calls_setCall (s := { s with resolving := _ }) hj _ j).trans (if_pos rfl)

theorem Orderly.lands_of_pursues (h : Orderly s) (hs : SoleCalls s) {f' : Nat}
    (hi : s.Pursues i n f) (hj : s.Pursues j n f') :
    i = j ∨ s.Lands cfg i f ∨ s.Lands cfg j f' := by
  obtain ⟨sti, hsi, hpi⟩ := view_eq_some.mp hi
  obtain ⟨stj, hsj, hpj⟩ := view_eq_some.mp hj
  rcases Stage.attempt?_or_landing hpi with hleads | ⟨g, e, rfl, rfl⟩
  · rcases Stage.attempt?_or_landing hpj with hleads' | ⟨g, e, rfl, rfl⟩
    · exact Or.inl (h.lookups.once (hs.leads_iff.mp ((view_of_call hsi).trans hleads))
        (hs.leads_iff.mp ((view_of_call hsj).trans hleads')))
    · exact Or.inr (Or.inr (h.lands_of_landing hsj))
  · exact Or.inr (Or.inl (h.lands_of_landing hsi))

/-! ## Followers -/

section
variable {timeout : Option Duration} {deadline : Option Moment}

theorem CallMove.follows {st st' : Stage} (h : CallMove cfg s i a st t st')
    (hst' : st' = .following n f timeout deadline) : s.resolving.flightOf? n = some f := by
  cases h with
  | follow hf =>
    obtain ⟨rfl, rfl, -⟩ := Stage.following.inj hst'
    exact hf
  | @compile n g a b t next =>
    rcases next with b | e
    · cases hst'
    · cases e <;> cases hst'
  | @own a b t next => rcases next with b | e <;> cases hst'
  | _ => cases hst'

def shared : Flight Resolution → Resolution
  | .landed r => r
  | _ => .failed (.abandoned .wait)

theorem CallMove.follower {st' : Stage}
    (h : CallMove cfg s i a (.following n f timeout deadline) t st') (ha : a ≠ .expire i) :
    ∃ o, s.resolving.flight? f = some o ∧ o ≠ .pending ∧ st' = resolved (shared o) := by
  cases h with
  | share hf => exact ⟨_, hf, by simp, rfl⟩
  | shareLoss hf => exact ⟨_, hf, by simp, rfl⟩
  | expireWait => exact absurd rfl ha

variable {now : Moment} {store : Store} {ttl : Option Duration} {past : List (State × Action)}

theorem Run.leader_of_follower (h : Run cfg (.fresh now store ttl) past s) :
    ∀ {u : State}, u ∈ visited past s → u.calls[i]? = some (.following n f timeout deadline) →
      ∃ j, ∃ v ∈ visited past s, v.Leads j n f := by
  induction h with
  | start =>
    intro u hu hi
    obtain rfl := List.mem_singleton.mp hu
    simp [State.fresh] at hi
  | @step past s a t hr ha ih =>
    have hkeep : (∃ j, ∃ v ∈ visited past s, v.Leads j n f) →
        ∃ j, ∃ v ∈ visited (past ++ [(s, a)]) t, v.Leads j n f := by
      rintro ⟨j, v, hv, hl⟩
      exact ⟨j, v, mem_visited_step.mpr (Or.inl hv), hl⟩
    intro u hu hi
    rcases mem_visited_step.mp hu with hu | rfl
    · exact hkeep (ih hu hi)
    · have hs : s ∈ visited past s := mem_visited.mpr (Or.inl rfl)
      rcases (step_of_act ha).call_after hi with hi | ⟨-, r, -, hst⟩ | ⟨st, w, -, hm, -⟩
      · exact hkeep (ih hs hi)
      · cases r <;> cases hst
      · have hclaimed := mem_of_flightOf? (hm.follows rfl)
        obtain ⟨j, hj⟩ := hr.orderly.lookups.claimed_iff.mp hclaimed
        exact hkeep ⟨j, s, hs, hr.soleCalls.leads_iff.mpr hj⟩

theorem Run.follower (h : Run cfg (.fresh now store ttl) past s) :
    ∀ {u : State}, u ∈ visited past s → u.calls[i]? = some (.following n f timeout deadline) →
      (∀ p ∈ past, p.2 ≠ .expire i) →
      s.calls[i]? = some (.following n f timeout deadline) ∨
        ∃ o, s.resolving.flight? f = some o ∧ o ≠ .pending ∧
          s.calls[i]? = some (resolved (shared o)) := by
  induction h with
  | start =>
    intro u hu hi _
    obtain rfl := List.mem_singleton.mp hu
    exact Or.inl hi
  | @step past s a t hr ha ih =>
    have hst := step_of_act ha
    intro u hu hi hexp
    rcases mem_visited_step.mp hu with hu | rfl
    · rcases ih hu hi fun p hp => hexp p (by simp [hp]) with hi | ⟨o, hf, ho, hi⟩
      · rcases hst.call_before hi with ⟨-, hi⟩ | ⟨w, st', hm, rfl, hi⟩
        · exact Or.inl hi
        · obtain ⟨o, hf, ho, rfl⟩ := hm.follower (hexp (s, a) (by simp))
          exact Or.inr ⟨o, hst.flight?_ended hf ho, ho, hi⟩
      · exact Or.inr ⟨o, hst.flight?_ended hf ho, ho, hst.finished hi⟩
    · exact Or.inl hi

theorem follower_answers {r : Resolution}
    (hi : s.calls[i]? = some (.following n f timeout deadline))
    (hf : s.resolving.flight? f = some (.landed r)) :
    s.act cfg (.advance i) = some (s.setCall i (resolved r)) ∧ s.act cfg (.expire i) = none := by
  constructor
  · simp [act, hi, State.advance, hf, moveCall]
  · rw [act, hi, Option.bind_some]
    cases timeout <;> cases deadline <;> simp [State.expire, hf]

theorem Run.fate (h : Run cfg (.fresh now store ttl) past s) {u : State}
    (hu : u ∈ visited past s) (hl : u.Leads j n f) : s.Pursues j n f ∨ s.HasLanded j f := by
  have hsole : SoleCalls u := h.invariant_visited SoleCalls.step soleCalls_fresh hu
  have horder : Orderly u := h.invariant_visited Orderly.step (orderly_fresh _ _ _) hu
  have hpursues : u.Pursues j n f := by
    obtain ⟨st, hj, hst⟩ := view_eq_some.mp hl
    exact (view_of_call hj).trans (Stage.pursuit?_of_attempt? hst)
  obtain ⟨after, hs⟩ := h.from_visited hu
  have hfate := hs.invariant
    (P := fun v => Orderly v ∧ SoleCalls v ∧ (v.Pursues j n f ∨ v.HasLanded j f))
    (fun hv hst => ⟨hv.1.step hst, hv.2.1.step hst, hst.fate hv.1 hv.2.1 hv.2.2⟩)
    ⟨horder, hsole, Or.inl hpursues⟩
  exact hfate.2.2

theorem Run.landed_iff (h : Run cfg (.fresh now store ttl) past s) {u : State}
    (hu : u ∈ visited past s) (hl : u.Leads j n f) {r : Resolution} :
    s.resolving.flight? f = some (.landed r) ↔ s.calls[j]? = some (resolved r) := by
  rcases h.fate hu hl with hp | ⟨e, hj, hf⟩
  · constructor
    · intro hf
      rw [h.orderly.pending_of_pursues hp] at hf
      cases hf
    · intro hj
      rw [Pursues, view_of_call hj] at hp
      cases hp
  · rw [hj, hf]
    cases e with
    | resolved r' => simp [lookupFlight, resolved]
    | overflowed o => simp [lookupFlight, resolved]

theorem Run.overflowed_of_abandoned (h : Run cfg (.fresh now store ttl) past s) {u : State}
    (hu : u ∈ visited past s) (hl : u.Leads j n f)
    (hf : s.resolving.flight? f = some .abandoned) :
    ∃ o, s.calls[j]? = some (.finished (.lookup (.overflowed o))) := by
  rcases h.fate hu hl with hp | ⟨e, hj, hf'⟩
  · rw [h.orderly.pending_of_pursues hp] at hf
    cases hf
  · cases e with
    | resolved r =>
      rw [hf] at hf'
      cases hf'
    | overflowed o => exact ⟨o, hj⟩

/-- In a run where no lookup stops on an overflow: one call leads for a name at a time. From its claim
it pursues the name until its flight lands with what it answers, and of two calls that pursue one name
one has nothing left to do but land its flight. A follower that does not give up answers what the one
leader of its flight has answered, or still waits, and then can answer as soon as the leader has.
Whoever leads for a stored name led for it when it was stored. -/
theorem lookups_single_flight (h : Run cfg (.fresh now store ttl) past s)
    (hsmooth : ∀ (i : Nat) o, s.calls[i]? ≠ some (.finished (.lookup (.overflowed o)))) :
    (∀ i j n f f', s.Leads i n f → s.Leads j n f' → i = j) ∧
    (∀ i j n f f', s.Pursues i n f → s.Pursues j n f' →
      i = j ∨ s.Lands cfg i f ∨ s.Lands cfg j f') ∧
    (∀ u ∈ visited past s, ∀ i n f, u.Leads i n f →
      (s.Pursues i n f ∧ s.resolving.flight? f = some .pending) ∨ s.HasLanded i f) ∧
    (∀ u ∈ visited past s, ∀ (i : Nat) n f timeout deadline,
      u.calls[i]? = some (.following n f timeout deadline) → (∀ p ∈ past, p.2 ≠ .expire i) →
      ∃ j : Nat, (∃ v ∈ visited past s, v.Leads j n f) ∧
        (∀ v ∈ visited past s, ∀ k m, v.Leads k m f → k = j ∧ m = n) ∧
        ((∃ r, s.calls[j]? = some (resolved r) ∧ s.calls[i]? = some (resolved r)) ∨
          (s.calls[i]? = some (.following n f timeout deadline) ∧
            ∀ r, s.calls[j]? = some (resolved r) →
              s.act cfg (.advance i) = some (s.setCall i (resolved r)) ∧
                s.act cfg (.expire i) = none))) ∧
    (∀ u ∈ visited past s, ∀ i n f, u.store.contains n = true → s.Leads i n f →
      u.Leads i n f) := by
  refine ⟨fun i j n f f' => h.leads_unique,
    fun i j n f f' => h.orderly.lands_of_pursues h.soleCalls, ?_, ?_,
    fun u hu i n f => h.leads_before hu⟩
  · intro u hu i n f hl
    exact (h.fate hu hl).imp (fun hp => ⟨hp, h.orderly.pending_of_pursues hp⟩) id
  intro u hu i n f timeout deadline hi hexp
  obtain ⟨j, v, hv, hl⟩ := h.leader_of_follower hu hi
  refine ⟨j, ⟨v, hv, hl⟩, fun w hw k m hk => h.leads_once hw hv hk hl, ?_⟩
  rcases h.follower hu hi hexp with hi | ⟨o, hf, ho, hi⟩
  -- the follower still waits, and its next move takes what the leader has answered
  · refine Or.inr ⟨hi, fun r hr => ?_⟩
    exact follower_answers hi ((h.landed_iff hv hl).mpr hr)
  · cases o with
    | pending => exact absurd rfl ho
    | landed r => exact Or.inl ⟨r, (h.landed_iff hv hl).mp hf, hi⟩
    | abandoned =>
      -- only an overflow leaves a flight without an answer
      obtain ⟨o, hj⟩ := h.overflowed_of_abandoned hv hl hf
      exact absurd hj (hsmooth j o)

end

def sharing : List Action :=
  List.flatten
    [[.call (.resolve Sample.x .unbounded), .call (.resolve Sample.x .unbounded)],
      List.replicate 5 (.advance 0), List.replicate 4 (.advance 1),
      [.fetched 0 .missing, .advance 0, .advance 0, .advance 0, .advance 1]]

theorem lookups_single_flight_sharing :
    ∃ past s, Run Sample.settings (.fresh 0 .empty none) past s ∧
      (∀ (i : Nat) o, s.calls[i]? ≠ some (.finished (.lookup (.overflowed o)))) ∧
      (∃ u ∈ visited past s, u.calls[1]? = some (.following Sample.x 0 none none)) ∧
      (∀ p ∈ past, p.2 ≠ .expire 1) ∧
      ∃ j : Nat, (∃ v ∈ visited past s, v.Leads j Sample.x 0) ∧
        ∃ r, s.calls[j]? = some (resolved r) ∧ s.calls[1]? = some (resolved r) := by
  have hperform : ((State.fresh 0 .empty none).perform Sample.settings sharing).any fun r =>
      r.2.calls = List.replicate 2 (resolved (.failed (.resolution Sample.x
        "not found in repository repository"))) ∧
      (∃ u ∈ visited r.1 r.2, u.calls[1]? = some (.following Sample.x 0 none none)) ∧
      ∀ p ∈ r.1, p.2 ≠ .expire 1 := by
    decide +kernel
  obtain ⟨past, s, hrun, hcalls, ⟨u, hu, hi⟩, hstays⟩ := Run.of_any hperform
  have hsmooth : ∀ (i : Nat) o, s.calls[i]? ≠ some (.finished (.lookup (.overflowed o))) := by
    intro i o hi
    rw [hcalls] at hi
    have := List.eq_of_mem_replicate (List.mem_of_getElem? hi)
    cases this
  obtain ⟨j, hl, -, hr | ⟨hi', -⟩⟩ :=
    (lookups_single_flight hrun hsmooth).2.2.2.1 u hu 1 _ _ _ _ hi hstays
  · exact ⟨past, s, hrun, hsmooth, ⟨u, hu, hi⟩, hstays, j, hl, hr⟩
  · rw [hcalls] at hi'
    cases hi'

/-! ## Attempts that overlap -/

/-- A lookup finds no source and takes its name out of the table; a second one claims the name before
the first has landed its flight. -/
def relieving : List Action :=
  List.flatten
    [[.call (.resolve Sample.x .unbounded)], List.replicate 5 (.advance 0),
      [.fetched 0 .missing, .advance 0, .advance 0],
      [.call (.resolve Sample.x .unbounded)], List.replicate 4 (.advance 1)]

def endlessMemory : Duration := .ofSeconds 9223372036854775807

/-- From its claim to the end of its flight a lookup is not alone with its name: two calls can have a
pending flight for it each. And where the failure of a leader outlasts the clock, its follower answers
a failure, and the leader no result. -/
theorem attempts_overlap :
    (∃ past s, Run Sample.settings (.fresh 0 .empty none) past s ∧
      (∀ (i : Nat) o, s.calls[i]? ≠ some (.finished (.lookup (.overflowed o)))) ∧
      s.Pursues 0 Sample.x 0 ∧ s.resolving.flight? 0 = some .pending ∧
      s.Leads 1 Sample.x 1 ∧ s.resolving.flight? 1 = some .pending) ∧
    ∃ past s, Run Sample.settings (.fresh nanosPerSecond .empty (some endlessMemory)) past s ∧
      (∀ p ∈ past, p.2 ≠ .expire 1) ∧
      (∃ u ∈ visited past s, u.Leads 0 Sample.x 0 ∧
        u.calls[1]? = some (.following Sample.x 0 none none)) ∧
      s.calls[1]? = some (resolved (.failed (.abandoned .wait))) ∧
      ∀ r, s.calls[0]? ≠ some (resolved r) := by
  have hrelieved : ((State.fresh 0 .empty none).perform Sample.settings relieving).any fun r =>
      (∀ st ∈ r.2.calls, ∀ o ∈ [Overflow.durationSum, .durationParts, .deadline],
        st ≠ .finished (.lookup (.overflowed o))) ∧
      r.2.view Stage.pursuit? 0 = some (Sample.x, 0) ∧ r.2.view Stage.attempt? 1 = some (Sample.x, 1) ∧
      r.2.resolving.flight? 0 = some .pending ∧ r.2.resolving.flight? 1 = some .pending := by
    decide +kernel
  have hforgotten : ((State.fresh nanosPerSecond .empty (some endlessMemory)).perform Sample.settings
      sharing).any fun r =>
      (∀ p ∈ r.1, p.2 ≠ .expire 1) ∧
      (∃ u ∈ visited r.1 r.2, u.view Stage.attempt? 0 = some (Sample.x, 0) ∧
        u.calls[1]? = some (.following Sample.x 0 none none)) ∧
      r.2.calls = [.finished (.lookup (.overflowed .deadline)),
        resolved (.failed (.abandoned .wait))] := by
    decide +kernel
  -- a new leader beside one that has yet to land, and a leader without the result it shares
  constructor
  · obtain ⟨past, s, hrun, hcalls, hpursues, hleads, hfirst, hsecond⟩ := Run.of_any hrelieved
    refine ⟨past, s, hrun, fun i o hi => ?_, hpursues, hfirst, hleads, hsecond⟩
    exact hcalls _ (List.mem_of_getElem? hi) o (by cases o <;> simp) rfl
  · obtain ⟨past, s, hrun, hstays, ⟨u, hu, hleads, hfollows⟩, hcalls⟩ := Run.of_any hforgotten
    refine ⟨past, s, hrun, hstays, ⟨u, hu, hleads, hfollows⟩, by rw [hcalls]; rfl, fun r hr => ?_⟩
    rw [hcalls] at hr
    cases hr

end OnDemand.Engine
