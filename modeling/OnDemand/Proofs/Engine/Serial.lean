import OnDemand.Proofs.Engine.Publication
import OnDemand.Proofs.Engine.Waiting

/-!
# A compiler that runs one job at a time

A job has the compiler from the moment it gets it until it returns, whether or not the batch that
waits for it has given up, and lets the next one in however it returns. What a job makes is stored
only by a batch that has waited for it until then, and a job has one batch (`compiler_serial`).
-/

namespace OnDemand.Engine

open State

/-- A job has the compiler: it looks for processors or runs. -/
def JobStage.IsInside : JobStage → Prop
  | preparing => True
  | running _ => True
  | _ => False

def State.Inside (s : State) (k : Nat) : Prop :=
  ∃ j, s.jobs[k]? = some j ∧ j.stage.IsInside

def State.Expects (s : State) (i k : Nat) : Prop :=
  ∃ b submitted deadline, s.view Stage.batch? i = some (.building b submitted k deadline)

/-- Call `i` has given up on job `k`. -/
def GaveUp (past : List (State × Action)) (i k : Nat) : Prop :=
  ∃ u, (u, .expire i) ∈ past ∧ u.Expects i k

/-- Call `i` has received what job `k` has made. -/
def Received (past : List (State × Action)) (i k : Nat) (o : BuildOutput) : Prop :=
  ∃ u j, (u, .advance i) ∈ past ∧ u.Expects i k ∧ u.jobs[k]? = some j ∧ 
    j.stage = .returned (.ended (.output o))

section
variable {cfg : Settings} {now : Moment} {store : Store} {ttl : Option Duration}
  {past after : List (State × Action)} {s t u : State} {a : Action} {i j k : Nat} {b : BatchStage}
  {next : BatchStage ⊕ BatchEnd} {st st' : Stage} {o : BuildOutput}

/-! ## One job inside -/

theorem BatchMove.newcomer (hm : BatchMove cfg s i a b t next) (hone : cfg.reentrant = false)
    {job : Job} (hj : t.jobs[k]? = some job) : s.jobs[k]? = some job ∨ job.stage = .queued := by
  cases hm with
  | submit =>
    rcases Nat.lt_or_ge k s.jobs.length with hk | hk
    · rw [List.getElem?_append_left hk] at hj
      exact Or.inl hj
    · rw [List.getElem?_append_right hk] at hj
      obtain rfl := List.mem_singleton.mp (List.mem_of_getElem? hj)
      exact Or.inr (by simp [hone])
  | idle _ hq => exact Or.inl (hq.jobs ▸ hj)
  | fail _ _ _ hq => exact Or.inl (hq.jobs ▸ hj)
  | conflict _ hq => exact Or.inl (hq.jobs ▸ hj)
  | expireWait _ hq => exact Or.inl (hq.jobs ▸ hj)
  | expireBuild hq => exact Or.inl (hq.jobs ▸ hj)
  | _ => exact Or.inl hj

theorem CallMove.newcomer (hm : CallMove cfg s i a st t st') (hone : cfg.reentrant = false)
    {job : Job} (hj : t.jobs[k]? = some job) : s.jobs[k]? = some job ∨ job.stage = .queued := by
  rcases hm.batch_or_apart with ⟨b, next, -, hbm, -⟩ | hap
  · exact hbm.newcomer hone hj
  · exact Or.inl (hap.jobs ▸ hj)

def State.Exclusive (s : State) : Prop :=
  ∀ k, s.Inside k → s.occupant = some k

theorem State.Exclusive.congr (h : s.Exclusive) (hj : t.jobs = s.jobs) (ho : t.occupant = s.occupant) :
    t.Exclusive := by
  rintro k ⟨job, hk, hin⟩
  rw [hj] at hk
  rw [ho]
  exact h k ⟨job, hk, hin⟩

theorem State.Exclusive.step (h : s.Exclusive) (hone : cfg.reentrant = false)
    (hst : Step cfg s a t) : t.Exclusive := by
  -- a job gets in while nobody is, and out when it ends
  cases hst with
  | call => exact h
  | move _ hm =>
    rintro k ⟨job, hj, hin⟩
    rw [setCall_occupant, hm.jobs.1]
    rcases hm.newcomer hone hj with hj | hqueued
    · exact h k ⟨job, hj, hin⟩
    · rw [hqueued] at hin
      cases hin
  | @occupy id job hj hs hfree =>
    rintro k ⟨job', hj', hin⟩
    rw [getElem?_setJob (s := { s with occupant := some id }) hj] at hj'
    split at hj'
    · rename_i hk
      rw [hk]
      rfl
    · cases hfree.symm.trans (h k ⟨job', hj', hin⟩)
  | @launch id job processors u hj hs hq =>
    rintro k ⟨job', hj', hin⟩
    rw [getElem?_setJob (hq.jobs ▸ hj), hq.jobs] at hj'
    rw [setJob_occupant, hq.occupant]
    split at hj'
    · rename_i hk
      rw [hk]
      exact h id ⟨job, hj, by simp [hs, JobStage.IsInside]⟩
    · exact h k ⟨job', hj', hin⟩
  | @built id job processors reply hj hs =>
    rintro k ⟨job', hj', hin⟩
    replace hj' := (getElem?_setJob (j := job) (by exact hj)).symm.trans hj'
    split at hj'
    · obtain rfl := Option.some.inj hj'
      cases hin
    · rename_i hk
      have hocc := h k ⟨job', hj', hin⟩
      have hother : s.occupant ≠ some id := fun he => hk (Option.some.inj (hocc.symm.trans he))
      rw [setJob_occupant]
      simp only [if_neg hother]
      exact hocc
  | @founder id job hj =>
    rintro k ⟨job', hj', hin⟩
    rw [getElem?_setJob hj] at hj'
    split at hj'
    · obtain rfl := Option.some.inj hj'
      cases hin
    · exact h k ⟨job', hj', hin⟩
  | put => exact h
  | putAll => exact h
  | quiet _ hq => exact h.congr hq.jobs hq.occupant

theorem Run.exclusive (h : Run cfg (.fresh now store ttl) past s) (hone : cfg.reentrant = false) :
    s.Exclusive := by
  refine h.invariant (fun hs hst => hs.step hone hst) ?_
  rintro k ⟨job, hj, -⟩
  simp [State.fresh] at hj

theorem Step.inside (hs : s.Exclusive) (h : Step cfg s a t) (hk : s.Inside k)
    (ha : ∀ reply, a ≠ .built k reply) : t.Inside k := by
  have hocc := hs k hk
  obtain ⟨job, hj, hin⟩ := hk
  -- what another job does leaves this one where it is
  cases h with
  | move _ hm =>
    obtain ⟨-, more, hmore⟩ := hm.jobs
    refine ⟨job, ?_, hin⟩
    rw [setCall_jobs, hmore, List.getElem?_append_left (List.getElem?_eq_some_iff.mp hj).1]
    exact hj
  | @occupy id job' hj' hs hfree =>
    by_cases hk : k = id
    · exact ⟨_, (getElem?_setJob (s := { s with occupant := some id }) hj').trans (if_pos hk), trivial⟩
    · exact ⟨job, (getElem?_setJob (s := { s with occupant := some id }) hj').trans
        ((if_neg hk).trans hj), hin⟩
  | @launch id job' processors u hj' hs hq =>
    have hset : (u.setJob id (.running processors)).jobs[k]? =
        if k = id then some { job' with stage := .running processors } else u.jobs[k]? :=
      getElem?_setJob (hq.jobs ▸ hj')
    by_cases hk : k = id
    · exact ⟨_, hset.trans (if_pos hk), trivial⟩
    · exact ⟨job, hset.trans ((if_neg hk).trans (hq.jobs ▸ hj)), hin⟩
  | @built id job' processors reply hj' hs =>
    have hk : k ≠ id := by
      rintro rfl
      exact ha reply rfl
    refine ⟨job, Eq.trans (getElem?_setJob (j := job') ?_) ((if_neg hk).trans hj), hin⟩
    exact hj'
  | @founder id job' hj' hfree =>
    have hk : k ≠ id := by
      rintro rfl
      exact hfree hocc
    exact ⟨job, (getElem?_setJob hj').trans ((if_neg hk).trans hj), hin⟩
  | quiet _ hq => exact ⟨job, hq.jobs ▸ hj, hin⟩
  | _ => exact ⟨job, hj, hin⟩

theorem Run.inside (h : Run cfg s after t) (hs : s.Exclusive) (hone : cfg.reentrant = false)
    (hk : s.Inside k) (ha : ∀ p ∈ after, ∀ reply, p.2 ≠ .built k reply) : t.Inside k := by
  induction h with
  | start => exact hk
  | @step after t a v hbefore hact ih =>
    have ht : t.Exclusive := hbefore.invariant (fun hu hst => hu.step hone hst) hs
    exact (step_of_act hact).inside ht (ih fun p hp => ha p (List.mem_append_left _ hp))
      (ha (t, a) (by simp))

theorem State.Exclusive.act_prepare (h : s.Exclusive) (hk : s.Inside k) (hne : j ≠ k) :
    s.act cfg (.prepare j) = none := by
  have hocc := h k hk
  rw [act]
  cases hj : s.jobs[j]? with
  | none => rfl
  | some job =>
    rw [Option.bind_some, prepare]
    cases hs : job.stage with
    | queued => simp [hocc]
    | preparing =>
      have hin : s.Inside j := ⟨job, hj, by simp [hs, JobStage.IsInside]⟩
      exact absurd (Option.some.inj ((h j hin).symm.trans hocc)) hne
    | running => rfl
    | returned => rfl

theorem State.Exclusive.act_built {job : Job} {p : ProcessorSet} (h : s.Exclusive)
    (hj : s.jobs[k]? = some job) (hs : job.stage = .running p) (reply : BuildReply) :
    ∃ t, s.act cfg (.built k reply) = some t ∧ t.store = s.store ∧
      ∀ m job', s.jobs[m]? = some job' → job'.stage = .queued → (t.act cfg (.prepare m)).isSome := by
  have hocc : s.occupant = some k := h k ⟨job, hj, by simp [hs, JobStage.IsInside]⟩
  refine ⟨({ s with occupant := none }).setJob k (.returned (.ended reply)), ?_, rfl, ?_⟩
  · simp [act, hj, finishJob, hs, hocc]
  · intro m job' hm hqueued
    have hmk : m ≠ k := by
      rintro rfl
      obtain rfl := Option.some.inj (hj.symm.trans hm)
      cases hs.symm.trans hqueued
    have hm' : (({ s with occupant := none }).setJob k (.returned (.ended reply))).jobs[m]? = some job' := by
      rw [getElem?_setJob (j := job) (by exact hj), if_neg hmk]
      exact hm
    simp [act, hm', prepare, hqueued]

/-! ## One batch for a job -/

theorem Step.expects (h : Step cfg s a t) (ht : t.Expects i k) :
    s.Expects i k ∨ (k = s.jobs.length ∧ a.mover? = some i) := by
  obtain ⟨b, submitted, deadline, hb⟩ := ht
  rcases h.batch_after hb with hb | ⟨_, _, he⟩ | ⟨_, _, _, _, -, hm, hn, -⟩
  · exact Or.inl ⟨b, submitted, deadline, hb⟩
  · cases he
  · exact Or.inr ⟨(hm.handed hn rfl).1, hm.mover⟩

theorem State.Expects.lt (h : s.Expects i k) (hs : s.Employed) : k < s.jobs.length := by
  obtain ⟨b, submitted, deadline, hb⟩ := h
  exact hs i b submitted k deadline hb

theorem Step.not_expects (h : Step cfg s a t) (hs : s.Employed) (hk : s.Expects i k)
    (ha : a.mover? = some i) : ¬ t.Expects i k := by
  rintro ⟨b', submitted', deadline', hb'⟩
  have hlt := hk.lt hs
  obtain ⟨b, submitted, deadline, hb⟩ := hk
  obtain ⟨st, hi, hst⟩ := view_eq_some.mp hb
  rcases h.call_before hi with ⟨hne, -⟩ | ⟨u, st', hm, -, hi'⟩
  · exact hne ha
  · rw [view_of_call hi'] at hb'
    rcases hm.batch_or_apart with ⟨b₁, next, -, hbm, hn⟩ | hap
    · exact Nat.ne_of_lt hlt (hbm.handed (hn.symm.trans hb') rfl).1
    · rw [hap.before] at hst
      cases hst

theorem Run.expects_unique (h : Run cfg (.fresh now store ttl) past s) :
    ∀ {i j : Nat}, s.Expects i k → s.Expects j k → i = j := by
  induction h with
  | start =>
    rintro i j ⟨b, _, _, hb⟩
    rw [view_fresh] at hb
    cases hb
  | @step past s a t h ha ih =>
    have hst := step_of_act ha
    intro i j hi hj
    rcases hst.expects hi with hi | ⟨hk, hi⟩ <;> rcases hst.expects hj with hj | ⟨hk', hj⟩
    · exact ih hi hj
    · exact absurd hk' (Nat.ne_of_lt (hi.lt h.employed))
    · exact absurd hk (Nat.ne_of_lt (hj.lt h.employed))
    · exact Option.some.inj (hi.symm.trans hj)

def Departed (past : List (State × Action)) (k : Nat) : Prop :=
  ∃ u i a, (u, a) ∈ past ∧ a.mover? = some i ∧ u.Expects i k

theorem GaveUp.departed (h : GaveUp past i k) : Departed past k := by
  obtain ⟨u, hu, hk⟩ := h
  exact ⟨u, i, _, hu, rfl, hk⟩

theorem Received.departed (h : Received past i k o) : Departed past k := by
  obtain ⟨u, j, hu, hk, -⟩ := h
  exact ⟨u, i, _, hu, rfl, hk⟩

theorem Run.not_expects (h : Run cfg (.fresh now store ttl) past s) (hk : Departed past k) :
    k < s.jobs.length ∧ ∀ i, ¬ s.Expects i k := by
  induction h with
  | start =>
    obtain ⟨_, _, _, hu, -⟩ := hk
    cases hu
  | @step past s a t h ha ih =>
    have hst := step_of_act ha
    obtain ⟨u, i, a', hu, hmover, hi⟩ := hk
    rcases List.mem_append.mp hu with hu | hu
    · obtain ⟨hlt, hno⟩ := ih ⟨u, i, a', hu, hmover, hi⟩
      refine ⟨Nat.lt_of_lt_of_le hlt hst.jobs_length, fun j hj => ?_⟩
      rcases hst.expects hj with hj | ⟨hnew, -⟩
      · exact hno j hj
      · exact Nat.ne_of_lt hlt hnew
    · obtain ⟨rfl, rfl⟩ := Prod.mk.inj (List.mem_singleton.mp hu)
      have hlt := hi.lt h.employed
      refine ⟨Nat.lt_of_lt_of_le hlt hst.jobs_length, fun j hj => ?_⟩
      rcases hst.expects hj with hj' | ⟨hnew, -⟩
      · obtain rfl := h.expects_unique hi hj'
        exact hst.not_expects h.employed hi hmover hj
      · exact Nat.ne_of_lt hlt hnew

theorem Run.not_received (h : Run cfg (.fresh now store ttl) past s) (hg : GaveUp past i k) :
    ¬ Received past j k o := by
  intro hr
  induction h with
  | start =>
    obtain ⟨u, hu, -⟩ := hg
    cases hu
  | @step past s a t h ha ih =>
    obtain ⟨u, hu, hi⟩ := hg
    obtain ⟨v, job, hv, hj, hjob⟩ := hr
    rcases List.mem_append.mp hu with hu' | hu' <;> rcases List.mem_append.mp hv with hv' | hv'
    · exact ih ⟨u, hu', hi⟩ ⟨v, job, hv', hj, hjob⟩
    · obtain ⟨rfl, -⟩ := Prod.mk.inj (List.mem_singleton.mp hv')
      exact (h.not_expects (GaveUp.departed ⟨u, hu', hi⟩)).2 j hj
    · obtain ⟨rfl, -⟩ := Prod.mk.inj (List.mem_singleton.mp hu')
      exact (h.not_expects (Received.departed ⟨v, job, hv', hj, hjob⟩)).2 i hi
    · obtain ⟨-, rfl⟩ := Prod.mk.inj (List.mem_singleton.mp hu')
      cases List.mem_singleton.mp hv'

/-! ## What is stored -/

theorem Received.append (h : Received past i k o) (more : List (State × Action)) :
    Received (past ++ more) i k o := by
  obtain ⟨u, j, hu, hj⟩ := h
  exact ⟨u, j, List.mem_append_left _ hu, hj⟩

theorem Run.received_of_storing (h : Run cfg (.fresh now store ttl) past s) :
    ∀ {i : Nat} {b : Batch} {submitted : List Name} {o : BuildOutput},
      s.view Stage.batch? i = some (.storing b submitted o) → ∃ k, Received past i k o := by
  induction h with
  | start =>
    intro i b submitted o hb
    rw [view_fresh] at hb
    cases hb
  | @step past s a t h ha ih =>
    intro i b submitted o hb
    rcases (step_of_act ha).batch_after hb with hb | ⟨_, _, he⟩ | ⟨_, _, _, _, hb₀, hm, hn, -⟩
    · obtain ⟨k, hk⟩ := ih hb
      exact ⟨k, hk.append _⟩
    · cases he
    -- a batch has something to store once it has received it
    · cases hm with
      | receive hj hs =>
        obtain ⟨-, -, rfl⟩ := BatchStage.storing.inj (Option.some.inj hn)
        exact ⟨_, s, _, by simp, ⟨_, _, _, hb₀⟩, hj, hs⟩
      | claimed ho => rcases ho.stage hn with ⟨-, h⟩ | ⟨_, h⟩ | h <;> cases h
      | join _ ho => rcases ho.stage hn with ⟨-, h⟩ | ⟨_, h⟩ | h <;> cases h
      | takeOver _ ho => rcases ho.stage hn with ⟨-, h⟩ | ⟨_, h⟩ | h <;> cases h
      | idle | fail | keep | conflict | expireWait | expireBuild =>
        cases endBatch_stage hn
      | _ => cases hn

theorem Run.received_of_act (h : Run cfg (.fresh now store ttl) past s) (ha : a.isInner = true)
    (hact : s.act cfg a = some t) (hstore : t.store ≠ s.store) :
    ∃ i k o names, a.mover? = some i ∧ Received past i k o ∧
      s.store.putAll o.artifacts = .ok (names, t.store) := by
  have hst := step_of_act hact
  cases hm : a.mover? with
  | none => exact absurd (hst.store_of_job ha hm) hstore
  | some i =>
    cases hst with
    | @move id _ st u _ hc hcall =>
      obtain rfl := Option.some.inj (hm.symm.trans hcall.mover)
      rcases hcall.batch_or_apart with ⟨b, next, hb, hbm, -⟩ | hap
      · rcases hbm.frame.store with hsame | ⟨b', submitted, o, names, rfl, hput⟩
        · exact absurd hsame hstore
        · obtain ⟨k, hk⟩ := h.received_of_storing ((view_of_call hc).trans hb)
          exact ⟨_, k, o, names, rfl, hk, hput⟩
      · exact absurd hap.store hstore
    | quiet hquiet =>
      rw [hquiet] at ha
      cases ha
    | _ => cases hm

/-- With a compiler that runs one job at a time: one job at most has the compiler; it keeps it,
whatever else happens, until it returns, and no other job can go on until then; however it returns,
it stores nothing and any that has waited can have the compiler. The engine stores nothing but what a call
has received from a job, and nobody receives what a job makes when its call has given up. -/
theorem compiler_serial (h : Run cfg (.fresh now store ttl) past s) (hone : cfg.reentrant = false) :
    (∀ j k, s.Inside j → s.Inside k → j = k) ∧
    (∀ k after t, s.Inside k → Run cfg s after t → (∀ p ∈ after, ∀ reply, p.2 ≠ .built k reply) →
      t.Inside k ∧ ∀ j, j ≠ k → ¬ t.Inside j ∧ t.act cfg (.prepare j) = none) ∧
    (∀ k job p reply, s.jobs[k]? = some job → job.stage = .running p →
      ∃ t, s.act cfg (.built k reply) = some t ∧ t.store = s.store ∧
        ∀ j job', s.jobs[j]? = some job' → job'.stage = .queued →
          (t.act cfg (.prepare j)).isSome) ∧
    (∀ p ∈ past, p.2.isInner = true → ∀ t, p.1.act cfg p.2 = some t → t.store ≠ p.1.store →
      ∃ i k o names, p.2.mover? = some i ∧ Received past i k o ∧
        p.1.store.putAll o.artifacts = .ok (names, t.store)) ∧
    (∀ i j k o, GaveUp past i k → ¬ Received past j k o) := by
  have hs := h.exclusive hone
  refine ⟨fun j k hj hk => Option.some.inj ((hs j hj).symm.trans (hs k hk)), ?_,
    fun k job p reply hj hp => hs.act_built hj hp reply, ?_, fun i j k o hg => h.not_received hg⟩
  · intro k after t hk hafter hno
    have ht := (h.append hafter).exclusive hone
    have hkt := hafter.inside hs hone hk hno
    refine ⟨hkt, fun j hj => ⟨fun hjt => hj ?_, ht.act_prepare hkt hj⟩⟩
    exact Option.some.inj ((ht j hjt).symm.trans (ht k hkt))
  · intro p hp hinner t hact hstore
    obtain ⟨before, after, u, rfl, hbefore, -, -⟩ := h.split hp
    obtain ⟨i, k, o, names, hm, hr, hput⟩ := hbefore.received_of_act hinner hact hstore
    exact ⟨i, k, o, names, hm, hr.append _, hput⟩

end

/-- A batch compiles and stores `y`. Another gives up on its run, which goes on, and a third waits
for its turn. -/
def detaching : List Action :=
  List.flatten
    [[.call (.compile [Sample.unit Sample.y] .unbounded)], List.replicate 4 (.advance 0),
      [.prepare 0, .prepare 0, .built 0 (.output ⟨[.plain Sample.y .empty], []⟩)],
      List.replicate 4 (.advance 0),
      [.call (.compile [Sample.unit Sample.x] ⟨none, some .zero⟩)], List.replicate 4 (.advance 1),
      [.prepare 1, .prepare 1, .expire 1, .advance 1, .advance 1],
      [.call (.compile [Sample.unit Sample.x] .unbounded)], List.replicate 4 (.advance 2)]

def detached : BatchStage :=
  .building ⟨[Sample.unit Sample.x], ⟨none, some .zero⟩, ⟨1, [], [], [Sample.x]⟩, [Sample.x], []⟩
    [Sample.x] 1 (some 0)

theorem compiler_serial_detaching :
    ∃ past s, Run oneAtATime (.fresh 0 .empty none) past s ∧ oneAtATime.reentrant = false ∧
      GaveUp past 1 1 ∧ s.Inside 1 ∧ s.act oneAtATime (.prepare 2) = none ∧
      (∃ t, s.act oneAtATime (.built 1 (.output ⟨[.plain Sample.x .empty], []⟩)) = some t ∧
        t.store = s.store ∧ (t.act oneAtATime (.prepare 2)).isSome) ∧
      (∃ i k o, Received past i k o ∧ ∀ j, ¬ GaveUp past j k) ∧
      ∀ j o, ¬ Received past j 1 o := by
  have hperform : ((State.fresh 0 .empty none).perform oneAtATime detaching).any fun r =>
      (∃ p ∈ r.1, p.2 = .expire 1 ∧ p.1.view Stage.batch? 1 = some detached) ∧
      (∃ p ∈ r.1, p.2.isInner = true ∧ p.1.store.contains Sample.y = false ∧
        (p.1.act oneAtATime p.2).any (·.store.contains Sample.y)) ∧
      r.2.jobs[1]? = some ⟨[Sample.unit Sample.x], 0, .running .empty⟩ ∧
      r.2.jobs[2]? = some ⟨[Sample.unit Sample.x], 0, .queued⟩ := by
    decide +kernel
  obtain ⟨past, s, hrun, ⟨⟨u, _⟩, hu, rfl, hview⟩, ⟨p, hp, hinner, hfree, hact⟩, hjob, hqueued⟩ :=
    Run.of_any hperform
  have hone : oneAtATime.reentrant = false := rfl
  have hgave : GaveUp past 1 1 := ⟨u, hu, _, _, _, hview⟩
  have hinside : s.Inside 1 := ⟨_, hjob, trivial⟩
  obtain ⟨-, hstays, hreturns, hstored, hlost⟩ := compiler_serial hrun hone
  obtain ⟨t, hbuilt, hstore, hnext⟩ := hreturns 1 _ _ (.output ⟨[.plain Sample.x .empty], []⟩) hjob rfl
  obtain ⟨v, hv, hhas⟩ := (Option.any_eq_true _ _).mp hact
  obtain ⟨i, k, o, _, -, hr, -⟩ := hstored p hp hinner v hv (by
    intro he
    rw [he, hfree] at hhas
    cases hhas)
  exact ⟨past, s, hrun, hone, hgave, hinside,
    ((hstays 1 [] s hinside .start (by simp)).2 2 (by decide)).2,
    ⟨t, hbuilt, hstore, hnext 2 _ hqueued rfl⟩,
    ⟨i, k, o, hr, fun j hj => hlost j i k o hj hr⟩, fun j o => hlost 1 j 1 o hgave⟩

end OnDemand.Engine
