import OnDemand.Proofs.Engine.Exclusion
import OnDemand.Proofs.Engine.SingleFlight

/-!
# Whose turn it is

The table of compilations is held by the one batch that claims, and a compiler that runs one job at a
time by a job that has not ended. A batch waits only for flights older than its own
(`Run.awaits_lt`), and some batch is on its way to end each of them (`Run.carried`).
-/

namespace OnDemand.Engine

open State FlightTable

/-! ## Who holds the table -/

def BatchStage.claiming? : BatchStage → Option Nat
  | claiming _ _ _ c => some c.flight
  | _ => none

def Stage.claiming? (st : Stage) : Option Nat :=
  st.batch?.bind BatchStage.claiming?

/-- The table of compilations is held by the one batch that claims, and its flight is the last. -/
structure Locked (claimant : Option Nat) (flights : Nat) (hold : Nat → Option Nat) : Prop where
  holder : ∀ {c}, claimant = some c → ∃ f, hold c = some f
  last : ∀ {c f}, hold c = some f → claimant = some c ∧ flights = f + 1

inductive LockMove (i : Nat) :
    Option Nat → Nat → Option Nat → Option Nat → Nat → Option Nat → Prop where
  | take (flights : Nat) : LockMove i none flights none (some i) (flights + 1) (some flights)
  | free (claimant : Option Nat) (flights f : Nat) :
      LockMove i claimant flights (some f) none flights none
  | keep (claimant : Option Nat) (flights : Nat) (x : Option Nat) :
      LockMove i claimant flights x claimant flights x

theorem Locked.move {claimant claimant' x x' : Option Nat} {flights flights' i : Nat}
    {hold : Nat → Option Nat} (h : Locked claimant flights hold) (hi : hold i = x)
    (hm : LockMove i claimant flights x claimant' flights' x') :
    Locked claimant' flights' (Function.update hold i x') := by
  -- whoever holds the table has the newest flight
  cases hm with
  | take =>
    constructor
    · intro c hc
      obtain rfl := Option.some.inj hc
      exact ⟨flights, Function.update_self ..⟩
    · intro c f hc
      by_cases hci : c = i
      · subst hci
        rw [Function.update_self] at hc
        obtain rfl := Option.some.inj hc
        exact ⟨rfl, rfl⟩
      · rw [Function.update_of_ne hci] at hc
        cases (h.last hc).1
  | free f =>
    constructor
    · intro c hc
      cases hc
    · intro c f' hc
      by_cases hci : c = i
      · subst hci
        rw [Function.update_self] at hc
        cases hc
      · rw [Function.update_of_ne hci] at hc
        have := (h.last hc).1.symm.trans (h.last hi).1
        exact absurd (Option.some.inj this) hci
  | keep =>
    rw [← hi, Function.update_eq_self]
    exact h

section
variable {cfg : Settings} {s t : State} {a : Action} {i : Nat}

theorem Onward.claiming {now : Moment} {b : Batch} {rest : List (Name × Nat)}
    {next : BatchStage ⊕ BatchEnd} (h : Onward now b rest next) :
    next.getLeft?.bind BatchStage.claiming? = none := by
  cases hb : next.getLeft? with
  | none => rfl
  | some b' => rcases h.stage hb with ⟨-, rfl⟩ | ⟨deadline, rfl⟩ | rfl <;> rfl

theorem claiming_endBatch (c : Claims) (ending : BatchEnd) :
    (endBatch c ending).getLeft?.bind BatchStage.claiming? = none := by
  cases hb : (endBatch c ending).getLeft? with
  | none => rfl
  | some b' =>
    rw [endBatch_stage hb]
    rfl

theorem lock_endBatch (c : Claims) (ending : BatchEnd) (hc : t.claimant = s.claimant)
    (hb : t.building = s.building) :
    LockMove i s.claimant s.building.flights.length none t.claimant t.building.flights.length
      ((endBatch c ending).getLeft?.bind BatchStage.claiming?) := by
  rw [claiming_endBatch, hc, hb]
  exact .keep _ _ _

theorem BatchMove.lock {b : BatchStage} {next : BatchStage ⊕ BatchEnd}
    (h : BatchMove cfg s i a b t next) :
    LockMove i s.claimant s.building.flights.length b.claiming?
      t.claimant t.building.flights.length (next.getLeft?.bind BatchStage.claiming?) := by
  -- the table is taken on entering, and free again when all names are claimed
  cases h with
  | enter hc =>
    rw [hc]
    have hlen : s.building.begin.2.flights.length = s.building.flights.length + 1 := by
      simp [FlightTable.begin]
    show LockMove i none _ none (some i) s.building.begin.2.flights.length _
    rw [hlen]
    exact .take _
  | follow => exact .keep _ _ _
  | skip => exact .keep _ _ _
  | lead => exact .keep _ _ _
  | claimed ho =>
    rw [ho.claiming]
    exact .free _ _ _
  | arrive => exact .keep _ _ _
  | arriveAll => exact .keep _ _ _
  | join _ ho =>
    rw [ho.claiming]
    exact .keep _ _ _
  | takeOver _ ho =>
    rw [ho.claiming]
    exact .keep _ _ _
  | idle _ hq => exact lock_endBatch _ _ hq.claimant hq.building
  | submit => exact .keep _ _ _
  | receive => exact .keep _ _ _
  | fail _ _ _ hq => exact lock_endBatch _ _ hq.claimant hq.building
  | keep => exact lock_endBatch _ _ rfl rfl
  | conflict _ hq => exact lock_endBatch _ _ hq.claimant hq.building
  | release => exact .keep _ _ _
  | @land g ending =>
    have hlen : (s.building.settle g.flight (flightOf ending)).flights.length =
        s.building.flights.length := by
      unfold FlightTable.settle
      split <;> simp
    show LockMove i _ _ none _ (s.building.settle g.flight (flightOf ending)).flights.length _
    rw [hlen]
    exact .keep _ _ _
  | expireWait _ hq => exact lock_endBatch _ _ hq.claimant hq.building
  | expireBuild hq => exact lock_endBatch _ _ hq.claimant hq.building

theorem CallMove.lock {st st' : Stage} (h : CallMove cfg s i a st t st') :
    LockMove i s.claimant s.building.flights.length st.claiming?
      t.claimant t.building.flights.length st'.claiming? := by
  rcases h.batch_or_apart with ⟨b, next, hb, hm, hn⟩ | hap
  · rw [Stage.claiming?, Stage.claiming?, hb, hn]
    exact hm.lock
  · have hafter : st'.claiming? = none := by
      rcases hap.after with h | ⟨units, limits, h⟩ <;> simp [Stage.claiming?, h, BatchStage.claiming?]
    rw [hap.claimant, hap.building, hafter, Stage.claiming?, hap.before]
    exact .keep _ _ _

def State.IsLocked (s : State) : Prop :=
  Locked s.claimant s.building.flights.length (s.view Stage.claiming?)

theorem State.IsLocked.congr (h : s.IsLocked) (hc : t.claimant = s.claimant)
    (hb : t.building = s.building) (hcalls : t.calls = s.calls) : t.IsLocked := by
  rw [IsLocked, hc, hb, view_congr hcalls]
  exact h

theorem State.IsLocked.step (h : s.IsLocked) (hst : Step cfg s a t) : t.IsLocked := by
  cases hst with
  | call r =>
    rw [IsLocked, State.view_call (s := s) (by cases r <;> rfl) rfl]
    exact h
  | move hc hm =>
    rw [IsLocked, hm.view hc]
    exact h.move (State.view_of_call hc) hm.lock
  | launch _ _ hq => exact h.congr hq.claimant hq.building hq.calls
  | quiet _ hq => exact h.congr hq.claimant hq.building hq.calls
  | _ => exact h

/-! ## Jobs -/

def State.Occupied (s : State) : Prop :=
  ∀ k, s.occupant = some k →
    ∃ j, s.jobs[k]? = some j ∧ (j.stage = .preparing ∨ ∃ p, j.stage = .running p)

def State.Employed (s : State) : Prop :=
  ∀ i b submitted k deadline,
    s.view Stage.batch? i = some (.building b submitted k deadline) → k < s.jobs.length

theorem getElem?_setJob {k m : Nat} {j : Job} {stage : JobStage} (hj : s.jobs[k]? = some j) :
    (s.setJob k stage).jobs[m]? = if m = k then some { j with stage := stage } else s.jobs[m]? := by
  rw [jobs_setJob hj]
  obtain ⟨hlt, -⟩ := List.getElem?_eq_some_iff.mp hj
  by_cases hm : m = k
  · subst hm
    simp [hlt]
  · simp [hm, List.getElem?_set_ne (Ne.symm hm)]

theorem units_setJob {k : Nat} {j : Job} {stage : JobStage} (hj : s.jobs[k]? = some j) :
    (s.setJob k stage).jobs.map (·.units) = s.jobs.map (·.units) := by
  apply List.ext_getElem?
  intro m
  rw [List.getElem?_map, List.getElem?_map, getElem?_setJob hj]
  by_cases hm : m = k
  · subst hm
    simp [hj]
  · rw [if_neg hm]

theorem BatchFrame.jobs_append {b : BatchStage} (h : BatchFrame s b t) :
    ∃ more, t.jobs = s.jobs ++ more := by
  rcases h.jobs with hj | ⟨_, _, _, -, -, hj⟩
  · exact ⟨[], by rw [hj, List.append_nil]⟩
  · exact ⟨_, hj⟩

theorem CallMove.jobs {st st' : Stage} (h : CallMove cfg s i a st t st') :
    t.occupant = s.occupant ∧ ∃ more, t.jobs = s.jobs ++ more := by
  rcases h.batch_or_apart with ⟨b, next, -, hm, -⟩ | hap
  · exact ⟨hm.frame.occupant, hm.frame.jobs_append⟩
  · exact ⟨hap.occupant, [], by rw [hap.jobs, List.append_nil]⟩

theorem State.Occupied.step (h : s.Occupied) (hst : Step cfg s a t) : t.Occupied := by
  intro k hk
  cases hst with
  | call => exact h k hk
  | move hc hm =>
    obtain ⟨hocc, more, hmore⟩ := hm.jobs
    obtain ⟨j, hj, hstage⟩ := h k (hocc.symm.trans hk)
    refine ⟨j, ?_, hstage⟩
    rw [setCall_jobs, hmore, List.getElem?_append_left (List.getElem?_eq_some_iff.mp hj).1]
    exact hj
  | @occupy id j hj hs =>
    obtain rfl : id = k := Option.some.inj hk
    refine ⟨{ j with stage := .preparing }, ?_, Or.inl rfl⟩
    exact (getElem?_setJob (s := { s with occupant := some id }) hj).trans (if_pos rfl)
  | @launch id j processors u hj hs hq =>
    have hj' : u.jobs[id]? = some j := by
      rw [hq.jobs]
      exact hj
    rw [setJob_occupant, hq.occupant] at hk
    rw [getElem?_setJob hj', hq.jobs]
    by_cases hki : k = id
    · rw [if_pos hki]
      exact ⟨_, rfl, Or.inr ⟨processors, rfl⟩⟩
    · rw [if_neg hki]
      exact h k hk
  | @built id j processors reply hj hs =>
    rw [setJob_occupant] at hk
    simp only at hk
    split at hk
    · cases hk
    · rename_i hne
      -- the job that ends had the compiler, so this is another one
      have hki : k ≠ id := by
        rintro rfl
        exact hne hk
      obtain ⟨j', hj', hstage⟩ := h k hk
      refine ⟨j', ?_, hstage⟩
      refine Eq.trans (getElem?_setJob (j := j) ?_) ((if_neg hki).trans hj')
      exact hj
  | @founder id j hj hfree =>
    have hki : k ≠ id := by
      rintro rfl
      exact hfree hk
    obtain ⟨j', hj', hstage⟩ := h k hk
    exact ⟨j', (getElem?_setJob hj).trans ((if_neg hki).trans hj'), hstage⟩
  | put => exact h k hk
  | putAll => exact h k hk
  | quiet _ hq =>
    rw [hq.jobs]
    exact h k (hq.occupant ▸ hk)

theorem length_setJob (k : Nat) (stage : JobStage) : (s.setJob k stage).jobs.length = s.jobs.length := by
  simp [setJob]

theorem Step.jobs_length (h : Step cfg s a t) : s.jobs.length ≤ t.jobs.length := by
  cases h with
  | move hc hm =>
    obtain ⟨-, more, hmore⟩ := hm.jobs
    rw [setCall_jobs, hmore, List.length_append]
    omega
  | occupy => exact Nat.le_of_eq (length_setJob _ _).symm
  | launch _ _ hq =>
    refine Nat.le_of_eq ?_
    rw [length_setJob, hq.jobs]
  | built | founder => exact Nat.le_of_eq (length_setJob _ _).symm
  | quiet _ hq => exact Nat.le_of_eq (congrArg List.length hq.jobs).symm
  | _ => exact Nat.le_refl _

def Action.ending? : Action → Option (Nat × JobEnd)
  | .built k reply => some (k, .ended reply)
  | .founder k => some (k, .unstarted)
  | _ => none

/-- What is at the place of a job after a move: the job as it was, the same job further on, or one
that a batch has just handed to the compiler. -/
inductive JobMove (s : State) (a : Action) (t : State) (k : Nat) (j : Job) : Prop where
  | kept : s.jobs[k]? = some j → JobMove s a t k j
  | moved {j₀} : s.jobs[k]? = some j₀ → (∀ r, j₀.stage ≠ .returned r) → j₀.units = j.units →
      ((∀ r, j.stage ≠ .returned r) ∨ ∃ r, a.ending? = some (k, r) ∧ j.stage = .returned r) →
      JobMove s a t k j
  | made {i b deadline} : (∀ r, j.stage ≠ .returned r) →
      t.view Stage.batch? i = some (.building b (b.submission.map (·.name)) k deadline) →
      JobMove s a t k j

theorem JobMove.of_setJob {u : State} {k m : Nat} {j j₀ : Job} {stage : JobStage}
    (hu : u.jobs = s.jobs) (hj₀ : s.jobs[m]? = some j₀) (hr : ∀ r, j₀.stage ≠ .returned r)
    (hstage : (∀ r, stage ≠ .returned r) ∨ ∃ r, a.ending? = some (m, r) ∧ stage = .returned r)
    (hj : (u.setJob m stage).jobs[k]? = some j) : JobMove s a t k j := by
  have hj₀' : u.jobs[m]? = some j₀ := by
    rw [hu]
    exact hj₀
  rw [getElem?_setJob hj₀'] at hj
  split at hj
  · rename_i hk
    subst hk
    obtain rfl := Option.some.inj hj
    exact .moved hj₀ hr rfl hstage
  · rw [hu] at hj
    exact .kept hj

theorem Step.job (h : Step cfg s a t) {k : Nat} {j : Job} (hj : t.jobs[k]? = some j) :
    JobMove s a t k j := by
  cases h with
  | @move id a st u st' hc hm =>
    have hview := hm.view (f := Stage.batch?) hc
    rcases hm.batch_or_apart with ⟨b, next, hb, hm, hn⟩ | hap
    · rw [setCall_jobs] at hj
      -- the job was there before, or is the one that has been submitted
      rcases hm.frame.jobs with he | ⟨b', skipped, stage, rfl, hstage, he⟩
      · rw [he] at hj
        exact .kept hj
      · rw [he] at hj
        rcases Nat.lt_or_ge k s.jobs.length with hk | hk
        · rw [List.getElem?_append_left hk] at hj
          exact .kept hj
        · have hlt := (List.getElem?_eq_some_iff.mp hj).1
          rw [List.length_append, List.length_singleton] at hlt
          obtain rfl : k = s.jobs.length := by omega
          rw [List.getElem?_append_right hk] at hj
          obtain rfl := List.mem_singleton.mp (List.mem_of_getElem? hj)
          cases hm with
          | idle _ hq =>
            have hlen := congrArg List.length (he.symm.trans hq.jobs)
            simp at hlen
          | submit =>
            have hnew := (congrFun hview id).trans ((Function.update_self ..).trans hn)
            exact .made hstage hnew
    · rw [setCall_jobs, hap.jobs] at hj
      exact .kept hj
  | occupy hj₀ hs =>
    exact .of_setJob rfl hj₀ (by simp [hs]) (Or.inl fun r hr => by cases hr) hj
  | launch hj₀ hs hq =>
    exact .of_setJob hq.jobs hj₀ (by simp [hs]) (Or.inl fun r hr => by cases hr) hj
  | built reply hj₀ hs => exact .of_setJob rfl hj₀ (by simp [hs]) (Or.inr ⟨_, rfl, rfl⟩) hj
  | founder hj₀ _ hs =>
    exact .of_setJob rfl hj₀ (by rcases hs with hs | hs <;> simp [hs]) (Or.inr ⟨_, rfl, rfl⟩) hj
  | quiet _ hq =>
    rw [hq.jobs] at hj
    exact .kept hj
  | _ => exact .kept hj

theorem Action.ending?_eq_ended {k : Nat} {reply : BuildReply} :
    a.ending? = some (k, .ended reply) ↔ a = .built k reply := by
  cases a <;> simp [Action.ending?]

theorem Step.job_returned (h : Step cfg s a t) {k : Nat} {j : Job} {r : JobEnd}
    (hj : t.jobs[k]? = some j) (hr : j.stage = .returned r) :
    s.jobs[k]? = some j ∨
      a.ending? = some (k, r) ∧ ∃ j', s.jobs[k]? = some j' ∧ j'.units = j.units := by
  cases h.job hj with
  | kept hj => exact Or.inl hj
  | moved hj₀ _ hunits hstage =>
    rcases hstage with hno | ⟨r, ha, hr'⟩
    · exact absurd hr (hno _)
    · obtain rfl := JobStage.returned.inj (hr.symm.trans hr')
      exact Or.inr ⟨ha, _, hj₀, hunits⟩
  | made hno => exact absurd hr (hno _)

theorem BatchMove.handed {b b' : BatchStage} {next : BatchStage ⊕ BatchEnd} {b₁ : Batch}
    {submitted : List Name} {k : Nat} {deadline : Option Moment} (hm : BatchMove cfg s i a b t next)
    (hn : next.getLeft? = some b') (hb' : b' = .building b₁ submitted k deadline) :
    k = s.jobs.length ∧ k < t.jobs.length := by
  subst hb'
  cases hm with
  | submit =>
    obtain ⟨-, -, rfl, -⟩ := BatchStage.building.inj (Option.some.inj hn)
    simp
  | claimed ho => rcases ho.stage hn with ⟨-, h⟩ | ⟨_, h⟩ | h <;> cases h
  | join _ ho => rcases ho.stage hn with ⟨-, h⟩ | ⟨_, h⟩ | h <;> cases h
  | takeOver _ ho => rcases ho.stage hn with ⟨-, h⟩ | ⟨_, h⟩ | h <;> cases h
  | idle | fail | keep | conflict | expireWait | expireBuild =>
    cases endBatch_stage hn
  | _ => cases hn

theorem State.Employed.step (h : s.Employed) (hst : Step cfg s a t) : t.Employed := by
  intro i b submitted k deadline hb
  rcases hst.batch_after hb with hb | ⟨_, _, he⟩ | ⟨b₀, u, next, st', hb₀, hm, hn, rfl⟩
  · exact Nat.lt_of_lt_of_le (h i b submitted k deadline hb) hst.jobs_length
  · cases he
  · exact (hm.handed hn rfl).2

end

/-! ## Waits go to older flights -/

section
variable {cfg : Settings} {s t : State} {a : Action} {i f : Nat} {n : Name} {now : Moment}
  {store : Store} {ttl : Option Duration} {past : List (State × Action)}

theorem State.isLocked_fresh : (State.fresh now store ttl).IsLocked := by
  rw [IsLocked, view_fresh]
  constructor
  · intro c hc
    cases hc
  · intro c f hc
    cases hc

theorem Run.isLocked (h : Run cfg (.fresh now store ttl) past s) : s.IsLocked :=
  h.invariant State.IsLocked.step isLocked_fresh

theorem Run.occupied (h : Run cfg (.fresh now store ttl) past s) : s.Occupied := by
  refine h.invariant State.Occupied.step ?_
  intro k hk
  cases hk

theorem Run.employed (h : Run cfg (.fresh now store ttl) past s) : s.Employed := by
  refine h.invariant State.Employed.step ?_
  intro i b submitted k deadline hb
  rw [view_fresh] at hb
  cases hb

theorem view_batchGuard? {b : BatchStage} (hb : s.view Stage.batch? i = some b) :
    s.view Stage.batchGuard? i = b.guard? := by
  obtain ⟨st, hi, hst⟩ := view_eq_some.mp hb
  rw [view_of_call hi, Stage.batchGuard?, hst]
  rfl

theorem view_claiming? {b : BatchStage} (hb : s.view Stage.batch? i = some b) :
    s.view Stage.claiming? i = b.claiming? := by
  obtain ⟨st, hi, hst⟩ := view_eq_some.mp hb
  rw [view_of_call hi, Stage.claiming?, hst]
  rfl

theorem BatchStage.guard?_of_awaits {b : BatchStage} (hf : (n, f) ∈ b.awaits) :
    ∃ γ, b.guard? = some γ := by
  cases b with
  | claiming => exact ⟨_, rfl⟩
  | following => exact ⟨_, rfl⟩
  | checking => exact ⟨_, rfl⟩
  | _ => cases hf

theorem Run.flightOf?_lt (h : Run cfg (.fresh now store ttl) past s) {units : List SourceUnit}
    {limits : Limits} {rest : List Name} {c : Claims}
    (hb : s.view Stage.batch? i = some (.claiming units limits (n :: rest) c))
    (hf : s.building.flightOf? n = some f) : f < c.flight := by
  obtain ⟨j, γ, hγ, rfl, hn⟩ := h.orderly.batches.claimed_iff.mp (mem_of_flightOf? hf)
  obtain ⟨hlt, -⟩ := List.getElem?_eq_some_iff.mp (h.orderly.batches.pending hγ)
  have hlast := (h.isLocked.last (view_claiming? hb)).2
  have hne : γ.flight ≠ c.flight := by
    intro he
    have hguard := view_batchGuard? hb
    obtain rfl := h.orderly.batches.apart hγ hguard he
    obtain rfl := Option.some.inj (hγ.symm.trans hguard)
    have hr := h.recorded (State.ledger?_of_batch hb)
    exact hr.not_looked (by simp) _ ((hr.led n).mp hn) rfl
  omega

/-- A batch waits only for flights older than its own. -/
theorem Run.awaits_lt (h : Run cfg (.fresh now store ttl) past s) :
    ∀ {i : Nat} {b : BatchStage} {n : Name} {f : Nat} {γ : Guard}, s.view Stage.batch? i = some b →
      (n, f) ∈ b.awaits → b.guard? = some γ → f < γ.flight := by
  induction h with
  | start =>
    intro i b n f γ hb
    rw [view_fresh] at hb
    cases hb
  | @step past s a t hr ha ih =>
    intro i b' n f γ' hb' hf hγ'
    rcases (step_of_act ha).batch_after hb' with hb | ⟨_, _, rfl⟩ | ⟨b, u, next, st', hb, hm, hn, -⟩
    · exact ih hb hf hγ'
    · cases hf
    · have hnext : heldNext next = some γ' := by
        rw [heldNext, hn]
        exact hγ'
      have htable := hm.building
      rw [hnext] at htable
      -- waited for before, or found in flight by a claim that has a flight already
      rcases hm.awaits hn hf with hf | ⟨units, limits, rest, c, rfl, hf⟩
      · obtain ⟨γ, hγ⟩ := BatchStage.guard?_of_awaits hf
        rw [hγ] at htable
        rw [htable.flight_eq]
        exact ih hb hf hγ
      · rw [htable.flight_eq]
        exact hr.flightOf?_lt hb hf

/-! ## What is waited for is on its way -/

def BatchStage.Carries (f : Nat) : BatchStage → Prop
  | releasing g _ => g.flight = f
  | landing g _ => g.flight = f
  | b => ∃ γ, b.guard? = some γ ∧ γ.flight = f ∧ γ.names ≠ []

theorem carries_endBatch {c : Claims} {ending : BatchEnd} (hled : c.led ≠ []) :
    ∃ b', (endBatch c ending).getLeft? = some b' ∧ b'.Carries c.flight := by
  unfold endBatch Claims.guard?
  rw [if_neg (by simpa using hled)]
  exact ⟨_, rfl, rfl⟩

theorem Onward.carries {now : Moment} {b : Batch} {rest : List (Name × Nat)}
    {next : BatchStage ⊕ BatchEnd} (h : Onward now b rest next) (hled : b.claims.led ≠ []) :
    ∃ b', next.getLeft? = some b' ∧ b'.Carries b.claims.flight := by
  cases h with
  | submit => exact ⟨_, rfl, _, rfl, rfl, hled⟩
  | wait => exact ⟨_, rfl, _, rfl, rfl, hled⟩
  | overflow => exact carries_endBatch hled

theorem BatchMove.carries {b : BatchStage} {next : BatchStage ⊕ BatchEnd}
    (h : BatchMove cfg s i a b t next) (hc : b.Carries f) :
    (∃ b', next.getLeft? = some b' ∧ b'.Carries f) ∨
      ∃ e, next = .inr e ∧ t.building = s.building.settle f (flightOf e) := by
  -- a flight is carried on until the batch lands
  cases h with
  | enter =>
    obtain ⟨γ, hγ, -⟩ := hc
    cases hγ
  | release => exact Or.inl ⟨_, rfl, hc⟩
  | @land g ending =>
    obtain rfl : g.flight = f := hc
    exact Or.inr ⟨_, rfl, rfl⟩
  | lead =>
    obtain ⟨γ, hγ, rfl, -⟩ := hc
    obtain rfl := Option.some.inj hγ
    exact Or.inl ⟨_, rfl, _, rfl, rfl, by simp⟩
  | claimed ho =>
    obtain ⟨γ, hγ, rfl, hled⟩ := hc
    obtain rfl := Option.some.inj hγ
    exact Or.inl (ho.carries hled)
  | join _ ho =>
    obtain ⟨γ, hγ, rfl, hled⟩ := hc
    obtain rfl := Option.some.inj hγ
    exact Or.inl (ho.carries hled)
  | takeOver _ ho =>
    obtain ⟨γ, hγ, rfl, hled⟩ := hc
    obtain rfl := Option.some.inj hγ
    exact Or.inl (ho.carries hled)
  | follow => exact Or.inl ⟨_, rfl, hc⟩
  | skip => exact Or.inl ⟨_, rfl, hc⟩
  | arrive => exact Or.inl ⟨_, rfl, hc⟩
  | arriveAll => exact Or.inl ⟨_, rfl, hc⟩
  | submit => exact Or.inl ⟨_, rfl, hc⟩
  | receive => exact Or.inl ⟨_, rfl, hc⟩
  | _ =>
    obtain ⟨γ, hγ, rfl, hled⟩ := hc
    obtain rfl := Option.some.inj hγ
    exact Or.inl (carries_endBatch hled)

def State.Carried (s : State) (f : Nat) : Prop :=
  ∃ j b, s.view Stage.batch? j = some b ∧ b.Carries f

theorem BatchStage.Carries.guard? {b : BatchStage} (h : b.Carries f) :
    ∃ γ, b.guard? = some γ ∧ γ.flight = f := by
  cases b with
  | releasing g e => exact ⟨g, rfl, h⟩
  | landing g e => exact ⟨_, rfl, h⟩
  | _ =>
    obtain ⟨γ, hγ, hf, -⟩ := h
    exact ⟨γ, hγ, hf⟩

theorem BatchStage.carries_of_has {b : BatchStage} (h : Has b.guard? n f) : b.Carries f := by
  obtain ⟨γ, hγ, hf, hn⟩ := h
  have hne : γ.names ≠ [] := List.ne_nil_of_mem hn
  cases b with
  | releasing g e =>
    obtain rfl := Option.some.inj hγ
    exact hf
  | landing g e =>
    obtain rfl := Option.some.inj hγ
    exact hf
  | _ => exact ⟨γ, hγ, hf, hne⟩

theorem carries_of_batchGuard (h : Has (s.view Stage.batchGuard? i) n f) :
    ∃ b, s.view Stage.batch? i = some b ∧ b.Carries f := by
  obtain ⟨γ, hγ, hhas⟩ := h
  obtain ⟨st, hi, hst⟩ := view_eq_some.mp hγ
  obtain ⟨b, hb, hb'⟩ := Option.bind_eq_some_iff.mp hst
  exact ⟨b, (view_of_call hi).trans hb, BatchStage.carries_of_has ⟨γ, hb', hhas⟩⟩

theorem Step.carried (h : Step cfg s a t) (hs : Orderly s) (hc : s.Carried f) :
    t.Carried f ∨ ∃ o, t.building.flight? f = some o ∧ o ≠ .pending := by
  obtain ⟨j, b, hb, hc⟩ := hc
  rcases h.batch_before hb with hb' | ⟨u, next, st', hm, rfl, hb'⟩
  · exact Or.inl ⟨j, b, hb', hc⟩
  · rcases hm.carries hc with ⟨b', hn, hc'⟩ | ⟨e, -, hu⟩
    · exact Or.inl ⟨j, b', hb'.trans hn, hc'⟩
    · obtain ⟨γ, hγ, rfl⟩ := hc.guard?
      refine Or.inr ⟨flightOf e, ?_, flightOf_ne_pending e⟩
      rw [setCall_building, hu]
      exact flight?_settle_self _ (hs.batches.pending ((view_batchGuard? hb).trans hγ))

theorem Run.carried (h : Run cfg (.fresh now store ttl) past s) (hl : Led past s n f) :
    s.Carried f ∨ ∃ o, s.building.flight? f = some o ∧ o ≠ .pending := by
  obtain ⟨u, hu, j, hj⟩ := hl
  have horder : Orderly u := h.invariant_visited Orderly.step (orderly_fresh _ _ _) hu
  have hcarried : u.Carried f := ⟨j, carries_of_batchGuard hj⟩
  obtain ⟨after, hs⟩ := h.from_visited hu
  have hkeep := hs.invariant
    (P := fun v => Orderly v ∧
      (v.Carried f ∨ ∃ o, v.building.flight? f = some o ∧ o ≠ .pending)) ?_
    ⟨horder, Or.inl hcarried⟩
  · exact hkeep.2
  · rintro v a w ⟨hv, hc | ⟨o, hf, ho⟩⟩ hst
    · exact ⟨hv.step hst, hst.carried hv hc⟩
    · exact ⟨hv.step hst, Or.inr ⟨o, hst.batch_ended hf ho, ho⟩⟩

end

end OnDemand.Engine
