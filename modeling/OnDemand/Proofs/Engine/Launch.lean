import OnDemand.Proofs.Engine.Publication

/-!
# When the compiler runs

A batch hands its units over as one job, and a job starts the compiler once, on these units
(`Run.hired`, `Run.launched`). What a batch reports is settled in one move (`Run.decided`), after
which its call hands nothing over any more.
-/

namespace OnDemand.Engine

open State

section
variable {cfg : Settings} {now : Moment} {store : Store} {ttl : Option Duration}
  {past : List (State × Action)} {s t u : State} {a : Action} {i k : Nat} {st st' : Stage}

/-! ## The life of one call -/

/-- What holds before a call is made and is kept by each of its moves and by what others do holds
of it after every run. -/
theorem Run.life {P : List (State × Action) → State → Option Stage → Prop}
    (h : Run cfg (.fresh now store ttl) past s) (i : Nat)
    (start : P [] (.fresh now store ttl) none)
    (rest : ∀ {past s a t}, Run cfg (.fresh now store ttl) past s → s.act cfg a = some t →
      a.mover? ≠ some i → t.calls[i]? = s.calls[i]? → P past s s.calls[i]? →
      P (past ++ [(s, a)]) t s.calls[i]?)
    (asked : ∀ {past s r t}, Run cfg (.fresh now store ttl) past s →
      s.act cfg (.call r) = some t → s.calls.length = i → P past s none →
      P (past ++ [(s, .call r)]) t (some r.stage))
    (move : ∀ {past s a u st st'}, Run cfg (.fresh now store ttl) past s → s.calls[i]? = some st →
      CallMove cfg s i a st u st' → s.act cfg a = some (u.setCall i st') → P past s (some st) →
      P (past ++ [(s, a)]) (u.setCall i st') (some st')) :
    P past s s.calls[i]? := by
  induction h with
  | start => exact start
  | @step past s a t h ha ih =>
    have hst := step_of_act ha
    cases hi : s.calls[i]? with
    | some st =>
      rw [hi] at ih
      -- the call is there: another moves, or it does
      rcases hst.call_before hi with ⟨hne, ht⟩ | ⟨u, st', hm, rfl, ht⟩
      · rw [ht, ← hi]
        exact rest h ha hne (ht.trans hi.symm) (hi ▸ ih)
      · rw [ht]
        exact move h hi hm ha ih
    | none =>
      rw [hi] at ih
      -- there is no such call: it is asked for in this move, or not yet
      cases ht : t.calls[i]? with
      | none =>
        rw [← hi]
        refine rest h ha ?_ (ht.trans hi.symm) (hi ▸ ih)
        intro hmover
        cases hst with
        | @move id _ _ _ _ hc hm =>
          obtain rfl := Option.some.inj (hm.mover.symm.trans hmover)
          rw [hi] at hc
          cases hc
        | quiet hquiet =>
          rw [Action.mover?_eq_none hquiet] at hmover
          cases hmover
        | _ => cases hmover
      | some st' =>
        rcases hst.call_after ht with hs | ⟨-, r, rfl, rfl⟩ | ⟨st, u, hs, -⟩
        · rw [hi] at hs
          cases hs
        · refine asked h ha ?_ ih
          have hlt := (List.getElem?_eq_some_iff.mp ht).1
          obtain rfl := Option.some.inj ha
          rw [List.length_append, List.length_singleton] at hlt
          exact Nat.le_antisymm (List.getElem?_eq_none_iff.mp hi) (Nat.le_of_lt_succ hlt)
        · rw [hi] at hs
          cases hs

theorem State.setCall_inj {v : State} {x y : Stage} (hu : u.calls[i]? = some x)
    (hv : v.calls[i]? = some y) (h : u.setCall i st = v.setCall i st') : st = st' := by
  have hcalls := congrArg (fun w : State => w.calls[i]?) h
  simp only [calls_setCall hu, calls_setCall hv, if_pos] at hcalls
  exact Option.some.inj hcalls

/-! ## Jobs of a call -/

def BatchStage.handover? (s : State) : BatchStage → Option Nat
  | submitting b => if b.submission = [] then none else some s.jobs.length
  | _ => none

def State.handover? (s : State) (i : Nat) (a : Action) : Option Nat :=
  if a = .advance i then (s.view Stage.batch? i).bind (BatchStage.handover? s) else none

def handovers (past : List (State × Action)) (i : Nat) : List Nat :=
  past.filterMap fun p => p.1.handover? i p.2

theorem handovers_append (past after : List (State × Action)) :
    handovers (past ++ after) i = handovers past i ++ handovers after i :=
  List.filterMap_append

theorem handovers_step (hs : s.handover? i a = none) :
    handovers (past ++ [(s, a)]) i = handovers past i := by
  rw [handovers_append]
  simp [handovers, hs]

theorem handover?_of_rest (ha : a.mover? ≠ some i) : s.handover? i a = none := by
  unfold State.handover?
  split
  · subst a
    exact absurd rfl ha
  · rfl

theorem handover?_of_stage {b : BatchStage} (hb : s.view Stage.batch? i = some b)
    (hno : ∀ b', b ≠ .submitting b') : s.handover? i a = none := by
  unfold State.handover?
  split
  · rw [hb, Option.bind_some]
    cases b with
    | submitting b' => exact absurd rfl (hno b')
    | _ => rfl
  · rfl

theorem handover?_of_none (hb : s.view Stage.batch? i = none) : s.handover? i a = none := by
  unfold State.handover?
  rw [hb]
  simp

theorem mem_handovers : k ∈ handovers past i ↔ ∃ b, Handed past i b k := by
  simp only [handovers, List.mem_filterMap]
  constructor
  · rintro ⟨⟨v, a⟩, hp, hk⟩
    simp only [State.handover?, Option.ite_none_right_eq_some, Option.bind_eq_some_iff] at hk
    obtain ⟨rfl, b, hb, hk⟩ := hk
    unfold BatchStage.handover? at hk
    split at hk
    · split at hk
      · cases hk
      · rename_i b hne
        exact ⟨b, hne, v, hp, hb, Option.some.inj hk⟩
    · cases hk
  · rintro ⟨b, hne, v, hp, hb, rfl⟩
    exact ⟨(v, .advance i), hp, by simp [State.handover?, BatchStage.handover?, hb, hne]⟩

structure Hired (past : List (State × Action)) (s : State) (i : Nat) (b : Batch)
    (submitted : List Name) (k : Nat) (j : Job) : Prop where
  only : handovers past i = [k]
  job : s.jobs[k]? = some j
  units : j.units = b.submission
  nonempty : b.submission ≠ []
  names : b.submission.map (·.name) = submitted

def BatchStage.Hiring (past : List (State × Action)) (s : State) (i : Nat) : BatchStage → Prop
  | building b submitted k _ => ∃ j, Hired past s i b submitted k j
  | storing b submitted o =>
    ∃ k j, Hired past s i b submitted k j ∧ j.stage = .returned (.ended (.output o))
  | releasing _ _ => True
  | landing _ _ => True
  | _ => handovers past i = []

def Stage.Hiring (past : List (State × Action)) (s : State) (i : Nat) (st : Stage) : Prop :=
  match st.batch? with
  | some b => b.Hiring past s i
  | none => st.ledger?.isSome → handovers past i = []

theorem Step.job_kept {j : Job} (h : Step cfg s a t) (hj : s.jobs[k]? = some j) :
    ∃ j', t.jobs[k]? = some j' ∧ j'.units = j.units ∧
      ∀ r, j.stage = .returned r → j'.stage = .returned r := by
  -- one job changes, and it had not returned
  have hset : ∀ {v : State} {m : Nat} {j₀ : Job} {stage : JobStage}, v.jobs = s.jobs →
      s.jobs[m]? = some j₀ → (∀ r, j₀.stage ≠ .returned r) → ∃ j', (v.setJob m stage).jobs[k]? =
      some j' ∧ j'.units = j.units ∧ ∀ r, j.stage = .returned r → j'.stage = .returned r := by
    intro v m j₀ stage hv hm hno
    have hm' : v.jobs[m]? = some j₀ := by rw [hv]; exact hm
    rw [getElem?_setJob hm']
    by_cases hkm : k = m
    · subst hkm
      obtain rfl := Option.some.inj (hj.symm.trans hm)
      rw [if_pos rfl]
      exact ⟨_, rfl, rfl, fun r hr => absurd hr (hno r)⟩
    · rw [if_neg hkm, hv]
      exact ⟨j, hj, rfl, fun _ hr => hr⟩
  cases h with
  | move hc hm =>
    obtain ⟨-, more, hmore⟩ := hm.jobs
    refine ⟨j, ?_, rfl, fun _ hr => hr⟩
    rw [setCall_jobs, hmore, List.getElem?_append_left (List.getElem?_eq_some_iff.mp hj).1]
    exact hj
  | occupy hm hs => exact hset rfl hm (by simp [hs])
  | launch hm hs hq => exact hset hq.jobs hm (by simp [hs])
  | built reply hm hs => exact hset rfl hm (by simp [hs])
  | founder hm _ hs => exact hset rfl hm (by rcases hs with hs | hs <;> simp [hs])
  | quiet _ hq =>
    rw [hq.jobs]
    exact ⟨j, hj, rfl, fun _ hr => hr⟩
  | _ => exact ⟨j, hj, rfl, fun _ hr => hr⟩

theorem Run.job_kept {j : Job} (h : Run cfg s past t) (hj : s.jobs[k]? = some j) :
    ∃ j', t.jobs[k]? = some j' ∧ j'.units = j.units ∧
      ∀ r, j.stage = .returned r → j'.stage = .returned r := by
  induction h with
  | start => exact ⟨j, hj, rfl, fun _ hr => hr⟩
  | step _ ha ih =>
    obtain ⟨j₁, hj₁, hunits₁, hstage₁⟩ := ih
    obtain ⟨j₂, hj₂, hunits₂, hstage₂⟩ := (step_of_act ha).job_kept hj₁
    exact ⟨j₂, hj₂, hunits₂.trans hunits₁, fun r hr => hstage₂ r (hstage₁ r hr)⟩

theorem Hired.step {b : Batch} {submitted : List Name} {j : Job}
    (h : Hired past s i b submitted k j) (hst : Step cfg s a t) (hs : s.handover? i a = none) :
    ∃ j', Hired (past ++ [(s, a)]) t i b submitted k j' ∧
      ∀ r, j.stage = .returned r → j'.stage = .returned r := by
  obtain ⟨j', hj', hunits, hstage⟩ := hst.job_kept h.job
  refine ⟨j', ⟨?_, hj', hunits.trans h.units, h.nonempty, h.names⟩, hstage⟩
  rw [handovers_step hs, h.only]

theorem BatchStage.Hiring.step {b : BatchStage} (h : b.Hiring past s i) (hst : Step cfg s a t)
    (hs : s.handover? i a = none) : b.Hiring (past ++ [(s, a)]) t i := by
  cases b with
  | building =>
    obtain ⟨j, hj⟩ := h
    obtain ⟨j', hj', -⟩ := hj.step hst hs
    exact ⟨j', hj'⟩
  | storing =>
    obtain ⟨k, j, hj, hr⟩ := h
    obtain ⟨j', hj', hstage⟩ := hj.step hst hs
    exact ⟨k, j', hj', hstage _ hr⟩
  | releasing | landing => trivial
  | _ => exact (handovers_step hs).trans h

theorem Stage.Hiring.step (h : st.Hiring past s i) (hst : Step cfg s a t)
    (hs : s.handover? i a = none) : st.Hiring (past ++ [(s, a)]) t i := by
  unfold Stage.Hiring at *
  split
  · rename_i b hb
    rw [hb] at h
    exact BatchStage.Hiring.step h hst hs
  · rename_i hb
    rw [hb] at h
    intro hl
    exact (handovers_step hs).trans (h hl)

theorem hiring_endBatch {c : Claims} {e : BatchEnd} {b : BatchStage}
    (hn : (endBatch c e).getLeft? = some b) : b.Hiring past s i := by
  rw [endBatch_stage hn]
  trivial

theorem Onward.hiring {b : Batch} {rest : List (Name × Nat)} {next : BatchStage ⊕ BatchEnd}
    {b' : BatchStage} (h : Onward now b rest next) (hn : next.getLeft? = some b')
    (hnil : handovers past i = []) : b'.Hiring past s i := by
  rcases h.stage hn with ⟨-, rfl⟩ | ⟨_, rfl⟩ | rfl
  · exact hnil
  · exact hnil
  · trivial

theorem BatchMove.hiring {b b' : BatchStage} {next : BatchStage ⊕ BatchEnd}
    (hb : s.view Stage.batch? i = some b) (hm : BatchMove cfg s i a b u next)
    (h : b.Hiring past s i) (hn : next.getLeft? = some b') (hjobs : t.jobs = u.jobs) :
    b'.Hiring (past ++ [(s, a)]) t i := by
  have hkept : (∀ b₀, b ≠ .submitting b₀) → handovers (past ++ [(s, a)]) i = handovers past i :=
    fun hno => handovers_step (handover?_of_stage hb hno)
  -- a batch hands a job over when it submits, and in no other move
  cases hm with
  | @submit b hne =>
    obtain rfl := Option.some.inj hn
    refine ⟨⟨b.submission, b.claims.done.length, if cfg.reentrant then .preparing else .queued⟩,
      ?_, ?_, rfl, hne, rfl⟩
    · rw [handovers_append, show handovers past i = [] from h]
      simp [handovers, State.handover?, BatchStage.handover?, hb, hne]
    · rw [hjobs]
      simp
  | @receive _ _ k _ j _ hj hr =>
    obtain rfl := Option.some.inj hn
    obtain ⟨j, hired⟩ := h
    obtain rfl := Option.some.inj (hired.job.symm.trans hj)
    refine ⟨k, j, ⟨?_, ?_, hired.units, hired.nonempty, hired.names⟩, hr⟩
    · rw [hkept (by simp), hired.only]
    · rw [hjobs]
      exact hj
  | claimed ho => exact ho.hiring hn ((hkept (by simp)).trans h)
  | join _ ho => exact ho.hiring hn ((hkept (by simp)).trans h)
  | takeOver _ ho => exact ho.hiring hn ((hkept (by simp)).trans h)
  | idle | fail | keep | conflict | expireWait | expireBuild => exact hiring_endBatch hn
  | land => cases hn
  | release =>
    obtain rfl := Option.some.inj hn
    trivial
  | _ =>
    obtain rfl := Option.some.inj hn
    exact (hkept (by simp)).trans h

theorem CallMove.ledger_ended {b : BatchStage} (hm : CallMove cfg s i a st u st')
    (hb : st.batch? = some b) (hn : st'.batch? = none) : st'.ledger? = none := by
  cases hm with
  | compile =>
    rw [batch?_afterBatch] at hn
    rw [ledger?_afterBatch, hn]
    rfl
  | own =>
    rw [batch?_afterOwnBatch] at hn
    rw [ledger?_afterOwnBatch, hn]
    rfl
  | _ => cases hb

theorem Run.hiring (h : Run cfg (.fresh now store ttl) past s) (i : Nat) :
    (s.calls[i]? = none → handovers past i = []) ∧
      ∀ st, s.calls[i]? = some st → st.Hiring past s i := by
  refine h.life (P := fun past s o => (o = none → handovers past i = []) ∧
    ∀ st, o = some st → st.Hiring past s i) i ?_ ?_ ?_ ?_
  · exact ⟨fun _ => rfl, by simp⟩
  · intro past s a t _ ha hne _ ih
    have hs : s.handover? i a = none := handover?_of_rest hne
    exact ⟨fun hi => (handovers_step hs).trans (ih.1 hi),
      fun st hi => (ih.2 st hi).step (step_of_act ha) hs⟩
  · intro past s r t _ _ _ ih
    have hnil : handovers (past ++ [(s, .call r)]) i = [] :=
      (handovers_step (handover?_of_rest (by simp [Action.mover?]))).trans (ih.1 rfl)
    refine ⟨by simp, ?_⟩
    rintro st ⟨⟩
    cases r with
    | compile => exact hnil
    | _ => exact fun _ => hnil
  · intro past s a u st st' h hi hm ha ih
    have hst := ih.2 st rfl
    have hview : s.view Stage.batch? i = st.batch? := view_of_call hi
    refine ⟨by simp, ?_⟩
    rintro st₁ ⟨⟩
    -- the batch of the call moves, or something else of the call does
    rcases hm.batch_or_apart with ⟨b, next, hb, hbm, hn⟩ | hap
    · unfold Stage.Hiring at hst ⊢
      rw [hb] at hst
      rw [hn]
      cases hleft : next.getLeft? with
      | some b' => exact hbm.hiring (hview.trans hb) hst hleft rfl
      | none =>
        intro hl
        rw [hm.ledger_ended hb (hn.trans hleft)] at hl
        cases hl
    · have hnone : handovers (past ++ [(s, a)]) i = handovers past i :=
        handovers_step (handover?_of_none (hview.trans hap.before))
      unfold Stage.Hiring at hst ⊢
      rw [hap.before] at hst
      cases hb' : st'.batch? with
      | none =>
        intro hl
        obtain ⟨l', hl'⟩ := Option.isSome_iff_exists.mp hl
        obtain ⟨l, hl, -⟩ := hm.ledger hi hl'
        exact hnone.trans (hst (by simp [hl]))
      | some b' =>
        rcases hap.after with h | ⟨units, limits, h⟩
        · rw [hb'] at h
          cases h
        · obtain rfl := Option.some.inj (hb'.symm.trans h)
          have hl' := Stage.ledger?_of_batch h
          obtain ⟨l, hl, -⟩ := hm.ledger hi hl'
          exact hnone.trans (hst (by simp [hl]))

theorem Run.hiring_of_view {b : BatchStage} (h : Run cfg (.fresh now store ttl) past s)
    (hb : s.view Stage.batch? i = some b) : b.Hiring past s i := by
  obtain ⟨st, hi, hst⟩ := view_eq_some.mp hb
  have hhiring := (h.hiring i).2 st hi
  unfold Stage.Hiring at hhiring
  rw [hst] at hhiring
  exact hhiring

/-! ## Starts of the compiler -/

structure Launch where
  job : Nat
  units : List SourceUnit
  processors : ProcessorSet
deriving DecidableEq

/-- What a move starts the compiler on: its job runs after the move. -/
def State.launch? (cfg : Settings) (s : State) : Action → Option Launch
  | .prepare k => ((s.act cfg (.prepare k)).bind (·.jobs[k]?)).bind fun j =>
    match j.stage with
    | .running processors => some ⟨k, j.units, processors⟩
    | _ => none
  | _ => none

def launches (cfg : Settings) (past : List (State × Action)) : List Launch :=
  past.filterMap fun p => p.1.launch? cfg p.2

theorem launches_append (past after : List (State × Action)) :
    launches cfg (past ++ after) = launches cfg past ++ launches cfg after :=
  List.filterMap_append

theorem launches_step :
    launches cfg (past ++ [(s, a)]) = launches cfg past ++ (s.launch? cfg a).toList := by
  rw [launches_append]
  cases h : s.launch? cfg a <;> simp [launches, h]

theorem launch?_prepare {j : Job} (hj : s.jobs[k]? = some j) :
    s.launch? cfg (.prepare k) = if j.stage = .preparing then
      some ⟨k, j.units, Processors.available cfg.builtin s.store.artifacts⟩ else none := by
  have hset : ∀ {v : State} (stage : JobStage), v.jobs = s.jobs →
      (v.setJob k stage).jobs[k]? = some { j with stage := stage } := by
    intro v stage hv
    rw [getElem?_setJob (by rw [hv]; exact hj), if_pos rfl]
  simp only [State.launch?, act, hj, Option.bind_some]
  unfold State.prepare
  cases hs : j.stage with
  | queued =>
    by_cases ho : s.occupant.isNone
    · simp only [ho, if_true, Option.bind_some]
      rw [hset (v := { s with occupant := some k }) .preparing rfl]
      rfl
    · simp [ho]
  | preparing =>
    simp only [Option.bind_some]
    rw [hset (v := s.tell _) _ rfl]
    rfl
  | running => rfl
  | returned => rfl

theorem launch?_eq_some {l : Launch} : s.launch? cfg a = some l ↔ a = .prepare l.job ∧
    ∃ j, s.jobs[l.job]? = some j ∧ j.stage = .preparing ∧ l.units = j.units ∧
      l.processors = Processors.available cfg.builtin s.store.artifacts := by
  constructor
  · intro h
    cases a with
    | prepare k =>
      cases hj : s.jobs[k]? with
      | none => simp [State.launch?, act, hj] at h
      | some j =>
        rw [launch?_prepare hj] at h
        split at h
        · rename_i hs
          obtain rfl := Option.some.inj h
          exact ⟨rfl, j, hj, hs, rfl, rfl⟩
        · cases h
    | _ => cases h
  · rcases l with ⟨k, units, processors⟩
    rintro ⟨rfl, j, hj, hs, rfl, rfl⟩
    rw [launch?_prepare hj, if_pos hs]

theorem launch?_of_outer (ha : ∀ k, a ≠ .prepare k) : s.launch? cfg a = none := by
  cases a with
  | prepare k => exact absurd rfl (ha k)
  | _ => rfl

def JobStage.begun : JobStage → Bool
  | running _ => true
  | returned (.ended _) => true
  | _ => false

def State.begun (s : State) (k : Nat) : List (List SourceUnit) :=
  match s.jobs[k]? with
  | some j => if j.stage.begun then [j.units] else []
  | none => []

def starts (cfg : Settings) (past : List (State × Action)) (k : Nat) : List (List SourceUnit) :=
  ((launches cfg past).filter (·.job = k)).map (·.units)

theorem starts_step (hs : s.launch? cfg a = none) :
    starts cfg (past ++ [(s, a)]) k = starts cfg past k := by
  unfold starts
  rw [launches_step, hs]
  simp

theorem State.begun_congr (h : t.jobs = s.jobs) : t.begun k = s.begun k := by
  unfold State.begun
  rw [h]

theorem State.begun_setJob {m : Nat} {j : Job} {stage : JobStage} (hu : u.jobs = s.jobs)
    (hj : s.jobs[m]? = some j) (hb : stage.begun = j.stage.begun) :
    (u.setJob m stage).begun k = s.begun k := by
  have hj' : u.jobs[m]? = some j := by rw [hu]; exact hj
  unfold State.begun
  rw [getElem?_setJob hj', hu]
  by_cases hk : k = m
  · subst hk
    rw [if_pos rfl, hj]
    simp only [hb]
  · rw [if_neg hk]

theorem BatchMove.begun {b : BatchStage} {next : BatchStage ⊕ BatchEnd}
    (hm : BatchMove cfg s i a b u next) : u.begun k = s.begun k := by
  cases hm with
  | submit =>
    unfold State.begun
    simp only
    by_cases hk : k < s.jobs.length
    · rw [List.getElem?_append_left hk]
    · rw [List.getElem?_eq_none (l := s.jobs) (by omega), List.getElem?_append_right (by omega)]
      by_cases hl : k = s.jobs.length
      · subst hl
        cases cfg.reentrant <;> simp [JobStage.begun]
      · rw [List.getElem?_eq_none (by simp; omega)]
  | idle _ hq => exact begun_congr hq.jobs
  | fail _ _ _ hq => exact begun_congr hq.jobs
  | conflict _ hq => exact begun_congr hq.jobs
  | expireWait _ hq => exact begun_congr hq.jobs
  | expireBuild hq => exact begun_congr hq.jobs
  | _ => rfl

theorem Run.starts (h : Run cfg (.fresh now store ttl) past s) (k : Nat) :
    starts cfg past k = s.begun k := by
  induction h with
  | start => rfl
  | @step past s a t h ha ih =>
    have hkept : s.launch? cfg a = none → t.begun k = s.begun k →
        Engine.starts cfg (past ++ [(s, a)]) k = t.begun k := by
      intro hno hbegun
      rw [starts_step hno, ih, hbegun]
    -- only a launch starts the compiler
    cases step_of_act ha with
    | move hc hm =>
      refine hkept (launch?_of_outer ?_) ?_
      · rintro m rfl
        cases hm.mover
      · rcases hm.batch_or_apart with ⟨_, _, -, hbm, -⟩ | hap
        · exact hbm.begun
        · exact begun_congr hap.jobs
    | occupy hj hs ho =>
      refine hkept ?_ (begun_setJob rfl hj (by rw [hs]; rfl))
      rw [launch?_prepare hj, if_neg (by simp [hs])]
    | @launch m j processors u hj hs hq =>
      have hj' : u.jobs[m]? = some j := by rw [hq.jobs]; exact hj
      have hbefore : s.begun m = [] := by simp [State.begun, hj, hs, JobStage.begun]
      unfold Engine.starts at ih ⊢
      rw [launches_step, launch?_prepare hj, if_pos hs, List.filter_append, List.map_append, ih]
      unfold State.begun
      rw [getElem?_setJob hj', hq.jobs]
      by_cases hk : k = m
      · subst hk
        simp [hj, hs, JobStage.begun]
      · simp [hk, Ne.symm hk]
    | built reply hj hs => exact hkept rfl (begun_setJob rfl hj (by rw [hs]; rfl))
    | founder hj _ hs =>
      exact hkept rfl (begun_setJob rfl hj (by rcases hs with hs | hs <;> rw [hs] <;> rfl))
    | quiet hin hq =>
      refine hkept (launch?_of_outer ?_) (begun_congr hq.jobs)
      rintro m rfl
      cases hin
    | _ => exact hkept rfl rfl

/-! ## How a report comes about -/

/-- A batch at some stage comes to its report in its next move, which leaves this store. -/
inductive Reports (s : State) : BatchStage → Report → Store → Prop where
  | idle {b} : b.submission = [] → Reports s (.submitting b) (b.report [] []) s.store
  | kept {b submitted o produced store} : s.store.putAll o.artifacts = .ok (produced, store) →
      Reports s (.storing b submitted o) (b.report submitted produced) store

theorem BatchMove.reports {b : BatchStage} {next : BatchStage ⊕ BatchEnd} {r : Report}
    (hm : BatchMove cfg s i a b u next) (he : nextEnding? next = some (.reported r)) :
    b.ending? = some (.reported r) ∨ (a = .advance i ∧ Reports s b r u.store) := by
  cases hm with
  | claimed ho => cases ho.ending he
  | join _ ho => cases ho.ending he
  | takeOver _ ho => cases ho.ending he
  | idle hb hq =>
    rw [nextEnding?_endBatch] at he
    cases he
    rw [hq.store]
    exact Or.inr ⟨rfl, .idle hb⟩
  | keep hp =>
    rw [nextEnding?_endBatch] at he
    cases he
    exact Or.inr ⟨rfl, .kept hp⟩
  | fail | conflict | expireWait | expireBuild =>
    rw [nextEnding?_endBatch] at he
    cases he
  | release => exact Or.inl he
  | land => exact Or.inl he
  | _ => cases he

def Decided (cfg : Settings) (past : List (State × Action)) (i : Nat) (r : Report) : Prop :=
  ∃ v b t, (v, .advance i) ∈ past ∧ v.act cfg (.advance i) = some t ∧
    v.view Stage.batch? i = some b ∧ Reports v b r t.store ∧ t.ledger? i = none

theorem Decided.append {r : Report} (h : Decided cfg past i r) (after : List (State × Action)) :
    Decided cfg (past ++ after) i r := by
  obtain ⟨v, b, t, hv, hb⟩ := h
  exact ⟨v, b, t, List.mem_append_left _ hv, hb⟩

theorem ledger?_of_nextEnding {next : BatchStage ⊕ BatchEnd} {e : BatchEnd}
    (h : nextEnding? next = some e) : next.getLeft?.bind BatchStage.ledger? = none := by
  rcases next with b | e'
  · cases b with
    | releasing => rfl
    | landing => rfl
    | _ => cases h
  · rfl

theorem Run.decided (h : Run cfg (.fresh now store ttl) past s) (i : Nat) :
    (∀ st b r, s.calls[i]? = some st → st.batch? = some b → b.ending? = some (.reported r) →
        Decided cfg past i r) ∧
      ∀ r, Returned cfg past i (.reported r) → Decided cfg past i r := by
  refine h.life (P := fun past _ o => (∀ st b r, o = some st → st.batch? = some b →
    b.ending? = some (.reported r) → Decided cfg past i r) ∧
      ∀ r, Returned cfg past i (.reported r) → Decided cfg past i r) i ?_ ?_ ?_ ?_
  · refine ⟨by simp, ?_⟩
    rintro r ⟨p, hp, -⟩
    cases hp
  · intro past s a t _ _ hne _ ih
    refine ⟨fun st b r hi hb he => (ih.1 st b r hi hb he).append _, ?_⟩
    intro r hr
    rcases returned_step.mp hr with hr | ⟨hi, -⟩
    · exact (ih.2 r hr).append _
    · exact absurd hi hne
  · intro past s r₀ t _ _ _ ih
    constructor
    · rintro st b r ⟨⟩ hb he
      cases r₀ with
      | compile =>
        obtain rfl := Option.some.inj hb
        cases he
      | _ => cases hb
    · intro r hr
      rcases returned_step.mp hr with hr | ⟨hi, -⟩
      · exact (ih.2 r hr).append _
      · cases hi
  · intro past s a u st st' _ hi hm ha ih
    -- a report is decided on when a batch of the call ends
    cases hst : st.batch? with
    | some b =>
      obtain ⟨v, next, hmove, hbm, hv⟩ := State.batchMove?_of_act hi hst hm.mover ha
      have hcall : v.calls[i]? = some st := by rw [hbm.frame.calls]; exact hi
      have hu : u.calls[i]? = some st := by rw [hm.quietCalls]; exact hi
      obtain rfl := setCall_inj hu hcall hv
      have hend : ∀ r, nextEnding? next = some (.reported r) →
          Decided cfg (past ++ [(s, a)]) i r := by
        intro r he
        rcases hbm.reports he with hb | ⟨rfl, hr⟩
        · exact (ih.1 st b r rfl hst hb).append _
        · refine ⟨s, b, _, by simp, ha, (view_of_call hi).trans hst, ?_, ?_⟩
          · rw [hv]
            exact hr
          · rw [ledger?_of_call ((calls_setCall hu _ i).trans (if_pos rfl)), ledger?_resume]
            exact ledger?_of_nextEnding he
      constructor
      · rintro st₁ b' r ⟨⟩ hb' he
        refine hend r ?_
        rw [batch?_resume] at hb'
        rw [Sum.getLeft?_eq_some_iff.mp hb']
        exact he
      · intro r hr
        rcases returned_step.mp hr with hr | ⟨-, w, hw⟩
        · exact (ih.2 r hr).append _
        · obtain ⟨rfl, rfl⟩ := Prod.mk.inj (Option.some.inj (hmove.symm.trans hw))
          exact hend r rfl
    | none =>
      constructor
      · rintro st₁ b r ⟨⟩ hb he
        rcases hm.batch_or_apart with ⟨b₀, _, hb₀, -⟩ | hap
        · rw [hst] at hb₀
          cases hb₀
        · rcases hap.after with hnone | ⟨_, _, henter⟩
          · rw [hnone] at hb
            cases hb
          · obtain rfl := Option.some.inj (henter.symm.trans hb)
            cases he
      · intro r hr
        rcases returned_step.mp hr with hr | ⟨-, w, hw⟩
        · exact (ih.2 r hr).append _
        · obtain ⟨j, b, hj, hb, -⟩ := State.batchMove?_mover hw
          obtain rfl := Option.some.inj (hj.symm.trans hm.mover)
          rw [view_of_call hi, hst] at hb
          cases hb

theorem Run.no_handover (h : Run cfg s past t) (hs : s.ledger? i = none) :
    handovers past i = [] ∧ t.ledger? i = none := by
  induction h with
  | start => exact ⟨rfl, hs⟩
  | @step past s₁ a t h ha ih =>
    obtain ⟨hnil, hnone⟩ := ih
    have hstage : ∃ st, s₁.calls[i]? = some st ∧ st.ledger? = none := by
      unfold State.ledger? at hnone
      split at hnone
      · exact ⟨_, ‹_›, hnone⟩
      · cases hnone
    obtain ⟨st, hi, hst⟩ := hstage
    constructor
    · rw [handovers_step, hnil]
      unfold State.handover?
      split
      · rw [view_of_call hi]
        cases hb : st.batch? with
        | none => rfl
        | some b =>
          -- a batch that can hand something over has a ledger
          rw [Stage.ledger?_of_batch hb] at hst
          cases b with
          | submitting => cases hst
          | _ => rfl
      · rfl
    · rcases (step_of_act ha).call_before hi with ⟨-, ht⟩ | ⟨u, st', hm, -, ht⟩
      · exact (ledger?_of_call ht).trans hst
      · rw [ledger?_of_call ht]
        by_contra hne
        obtain ⟨l', hl'⟩ := Option.ne_none_iff_exists'.mp hne
        obtain ⟨l, hl, -⟩ := hm.ledger hi hl'
        rw [hst] at hl
        cases hl

/-- A call that has returned a report came to it in one move, at a stage that its run led to, and has
had one job for it or none. -/
theorem Run.reported {r : Report} (h : Run cfg (.fresh now store ttl) past s)
    (hr : Returned cfg past i (.reported r)) :
    ∃ before v b t after, past = before ++ (v, .advance i) :: after ∧
      Run cfg (.fresh now store ttl) before v ∧ v.act cfg (.advance i) = some t ∧
      Run cfg t after s ∧ v.view Stage.batch? i = some b ∧ Reports v b r t.store ∧
      t.ledger? i = none ∧ handovers past i = handovers before i := by
  obtain ⟨v, b, t, hv, ha, hb, hreports, hclosed⟩ := (h.decided i).2 r hr
  obtain ⟨before, after, u, rfl, hbefore, hu, hafter⟩ := h.split hv
  obtain rfl := Option.some.inj (ha.symm.trans hu)
  refine ⟨before, v, b, t, after, rfl, hbefore, ha, hafter, hb, hreports, hclosed, ?_⟩
  have hmove : v.handover? i (.advance i) = none := by
    generalize t.store = final at hreports
    cases hreports with
    | idle hnil => simp [State.handover?, hb, BatchStage.handover?, hnil]
    | kept => exact handover?_of_stage hb (by simp)
  rw [List.append_cons, handovers_append, (hafter.no_handover hclosed).1, List.append_nil,
    handovers_step hmove]

end

end OnDemand.Engine
