import Mathlib.Logic.Relation
import OnDemand.Proofs.Engine.Turns

/-!
# Who waits for whom

A call waits for the one call that has what it needs next: the flight it follows, the compiler, or
the table of compilations. A lookup waits for a lookup that leads, whose batch waits only for older
flights, whose batches wait only for who has the compiler or the table; so each wait goes down in
`State.rank`, and no calls wait for each other in a ring. Where nobody gives up, a call that waits
for nobody can go on (`waits_acyclic`).
-/

namespace OnDemand.Engine

open State FlightTable

/-! ## Waits -/

/-- A batch does the next thing only while nobody holds the table. -/
def BatchStage.NeedsTable : BatchStage → Prop
  | entering _ _ => True
  | releasing _ _ => True
  | _ => False

/-- Call `i` can do nothing until call `j` has done something. -/
inductive State.WaitsFor (s : State) (i j : Nat) : Prop where
  /-- The lookup `j` leads the flight that the lookup `i` follows. -/
  | leader {n f timeout deadline} : s.calls[i]? = some (.following n f timeout deadline) →
      s.resolving.flight? f = some .pending → s.Flies j f → WaitsFor s i j
  /-- The batch of `j` has the next flight that the batch of `i` follows. -/
  | flight {b n f rest deadline γ} :
      s.view Stage.batch? i = some (.following b ((n, f) :: rest) deadline) →
      s.building.flight? f = some .pending → s.view Stage.batchGuard? j = some γ → γ.flight = f →
      WaitsFor s i j
  /-- The job of `j` has the compiler, and that of `i` waits for it. -/
  | compiler {b submitted k deadline job b' submitted' k' deadline'} :
      s.view Stage.batch? i = some (.building b submitted k deadline) → s.jobs[k]? = some job →
      job.stage = .queued → s.occupant = some k' →
      s.view Stage.batch? j = some (.building b' submitted' k' deadline') → WaitsFor s i j
  | table {b} : s.view Stage.batch? i = some b → b.NeedsTable → s.claimant = some j → WaitsFor s i j

def State.Unfinished (s : State) (i : Nat) : Prop :=
  ∃ st, s.calls[i]? = some st ∧ ∀ answer, st ≠ .finished answer

/-- Call `i` can go on: by itself, when the repository answers, or with its job in the compiler,
whatever these answer. -/
inductive State.CanStep (cfg : Settings) (s : State) (i : Nat) : Prop where
  | advance : (s.act cfg (.advance i)).isSome → CanStep cfg s i
  | fetched : (∀ reply, (s.act cfg (.fetched i reply)).isSome) → CanStep cfg s i
  | prepare {b submitted k deadline} :
      s.view Stage.batch? i = some (.building b submitted k deadline) →
      (s.act cfg (.prepare k)).isSome → CanStep cfg s i
  | built {b submitted k deadline} :
      s.view Stage.batch? i = some (.building b submitted k deadline) →
      (∀ reply, (s.act cfg (.built k reply)).isSome) → CanStep cfg s i

def State.IsQueued (s : State) (i : Nat) : Prop :=
  ∃ b submitted k deadline job k', s.view Stage.batch? i = some (.building b submitted k deadline) ∧
    s.jobs[k]? = some job ∧ job.stage = .queued ∧ s.occupant = some k'

section
variable {cfg : Settings} {now : Moment} {store : Store} {ttl : Option Duration}
  {past : List (State × Action)} {s t u : State} {a : Action} {i j k f : Nat} {n : Name}
  {b b' : BatchStage} {next : BatchStage ⊕ BatchEnd} {st st' : Stage}

/-! ## What a call can do next -/

theorem State.CanStep.of_advance (hi : s.calls[i]? = some st)
    (h : (s.advance cfg i st).isSome) : s.CanStep cfg i := by
  refine .advance ?_
  rw [act, hi, Option.bind_some, Option.isSome_map]
  exact h

theorem act_advance_of_batch (cfg : Settings) (hb : s.view Stage.batch? i = some b) :
    ∃ st : Stage, s.act cfg (.advance i) =
      (s.advanceBatch cfg i b).map fun r => r.1.setCall i (st.resume r.2) := by
  obtain ⟨st, hi, hst⟩ := view_eq_some.mp hb
  refine ⟨st, ?_⟩
  rw [act, hi, Option.bind_some, advance_of_batch? hst, Option.map_map]
  rfl

theorem State.CanStep.of_advanceBatch (hb : s.view Stage.batch? i = some b)
    (h : (s.advanceBatch cfg i b).isSome) : s.CanStep cfg i := by
  obtain ⟨st, ha⟩ := act_advance_of_batch cfg hb
  refine .advance ?_
  rw [ha, Option.isSome_map]
  exact h

theorem State.unfinished_of_view {β : Type} {f : Stage → Option β} {x : β} (h : s.view f i = some x)
    (hf : ∀ answer, f (.finished answer) = none) : s.Unfinished i := by
  obtain ⟨st, hi, hx⟩ := view_eq_some.mp h
  refine ⟨st, hi, ?_⟩
  rintro answer rfl
  rw [hf] at hx
  cases hx

theorem State.CanStep.of_batch (hb : s.view Stage.batch? i = some b)
    (htable : b.NeedsTable → s.claimant = none)
    (hflight : ∀ b' p rest deadline, b ≠ .following b' (p :: rest) deadline)
    (hjob : ∀ b' submitted k deadline, b ≠ .building b' submitted k deadline) : s.CanStep cfg i := by
  refine .of_advanceBatch hb ?_
  cases b with
  | entering => simp [advanceBatch, htable trivial]
  | claiming units limits rest c => cases rest <;> simp [advanceBatch]
  | following b rest deadline =>
    cases rest with
    | nil => simp [advanceBatch]
    | cons p rest => exact absurd rfl (hflight b p rest deadline)
  | building b submitted k deadline => exact absurd rfl (hjob b submitted k deadline)
  | releasing => simp [advanceBatch, htable trivial]
  | _ => simp [advanceBatch]

theorem State.CanStep.of_job {b : Batch} {submitted : List Name} {deadline : Option Moment} {job : Job}
    (hb : s.view Stage.batch? i = some (.building b submitted k deadline)) (hj : s.jobs[k]? = some job)
    (hq : job.stage = .queued → s.occupant = none) : s.CanStep cfg i := by
  cases hs : job.stage with
  | queued =>
    refine .prepare hb ?_
    simp [act, hj, State.prepare, hs, hq hs]
  | preparing =>
    refine .prepare hb ?_
    simp [act, hj, State.prepare, hs]
  | running p =>
    refine .built hb fun reply => ?_
    simp [act, hj, State.finishJob, hs]
  | returned reply =>
    refine .of_advanceBatch hb ?_
    have hj' : s.jobs[k]? = some ⟨job.units, job.skipped, .returned reply⟩ := by
      rw [hj, ← hs]
    simp [advanceBatch, hj']

theorem State.CanStep.of_call (hi : s.calls[i]? = some st) (hb : st.batch? = none)
    (hfollow : ∀ n f timeout deadline, st ≠ .following n f timeout deadline)
    (hst : ∀ answer, st ≠ .finished answer) : s.CanStep cfg i := by
  cases st with
  | looking n limits =>
    refine .of_advance hi ?_
    simp only [State.advance]
    split <;> rfl
  | remembering n limits =>
    refine .of_advance hi ?_
    simp only [State.advance]
    split
    · rfl
    · split <;> rfl
  | following n f timeout deadline => exact absurd rfl (hfollow n f timeout deadline)
  | fetching n limits g deadline =>
    refine .fetched fun reply => ?_
    cases reply <;> simp [act, hi, State.receiveFetch]
  | compiling => cases hb
  | batch => cases hb
  | finished answer => exact absurd rfl (hst answer)
  | _ => exact .of_advance hi (by simp [State.advance])

theorem Run.batch_canStep_or_waits (h : Run cfg (.fresh now store ttl) past s)
    (hb : s.view Stage.batch? i = some b) :
    s.CanStep cfg i ∨ (∃ j, s.WaitsFor i j) ∨ s.IsQueued i := by
  -- a batch is held up by the table, by a flight or by the compiler
  by_cases htable : b.NeedsTable → s.claimant = none
  · cases b with
    | following b rest deadline =>
      cases rest with
      | nil => exact Or.inl (.of_batch hb htable (by simp) (by simp))
      | cons p rest =>
        obtain ⟨n, f⟩ := p
        by_cases hp : s.building.flight? f = some .pending
        · have hled := (h.awaits hb).led n f List.mem_cons_self
          rcases h.carried hled with ⟨j, b', hb', hcarries⟩ | ⟨o, ho, hne⟩
          · obtain ⟨γ, hγ, hf⟩ := hcarries.guard?
            exact Or.inr (Or.inl ⟨j, .flight hb hp ((view_batchGuard? hb').trans hγ) hf⟩)
          · exact absurd (Option.some.inj (ho.symm.trans hp)) hne
        · refine Or.inl (.of_advanceBatch hb ?_)
          cases ho : s.building.flight? f with
          | none => simp [advanceBatch, ho]
          | some o =>
            cases o with
            | pending => exact absurd ho hp
            | landed e => simp [advanceBatch, ho]
            | abandoned => simp [advanceBatch, ho]
    | building b submitted k deadline =>
      obtain ⟨job, hj⟩ : ∃ job, s.jobs[k]? = some job :=
        ⟨_, List.getElem?_eq_getElem (h.employed i b submitted k deadline hb)⟩
      by_cases hq : job.stage = .queued → s.occupant = none
      · exact Or.inl (.of_job hb hj hq)
      · obtain ⟨hs, ho⟩ := Classical.not_imp.mp hq
        obtain ⟨k', hk'⟩ := Option.ne_none_iff_exists'.mp ho
        exact Or.inr (Or.inr ⟨b, submitted, k, deadline, job, k', hb, hj, hs, hk'⟩)
    | _ => exact Or.inl (.of_batch hb htable (by simp) (by simp))
  · obtain ⟨hneeds, hc⟩ := Classical.not_imp.mp htable
    obtain ⟨c, hc⟩ := Option.ne_none_iff_exists'.mp hc
    exact Or.inr (Or.inl ⟨c, .table hb hneeds hc⟩)

theorem Run.canStep_or_waits (h : Run cfg (.fresh now store ttl) past s) (hi : s.Unfinished i) :
    s.CanStep cfg i ∨ (∃ j, s.WaitsFor i j) ∨ s.IsQueued i := by
  obtain ⟨st, hi, hst⟩ := hi
  cases st with
  | following n f timeout deadline =>
    obtain ⟨j, u, hu, hl⟩ := h.leader_of_follower (mem_visited.mpr (Or.inl rfl)) hi
    rcases h.fate hu hl with hp | ⟨e, -, hf⟩
    · exact Or.inr (Or.inl ⟨j, .leader hi (h.orderly.pending_of_pursues hp) hp.flies⟩)
    · refine Or.inl (.of_advance hi ?_)
      cases e with
      | resolved r => simp [State.advance, hf, lookupFlight]
      | overflowed o => simp [State.advance, hf, lookupFlight]
  | compiling n g b => exact h.batch_canStep_or_waits (b := b) (view_of_call hi)
  | batch b => exact h.batch_canStep_or_waits (b := b) (view_of_call hi)
  | _ => exact Or.inl (.of_call hi rfl (by simp) hst)

/-! ## Waits go down -/

def BatchStage.rank (s : State) : BatchStage → Nat
  | following b _ _ => b.claims.flight + 2
  | entering _ _ => 1
  | releasing _ _ => 1
  | building _ _ k _ => if s.jobs[k]?.any (·.stage = .queued) then 1 else 0
  | _ => 0

def Stage.rank (s : State) : Stage → Nat
  | following _ _ _ _ => s.building.flights.length + 3
  | st => st.batch?.elim 0 (BatchStage.rank s)

def State.rank (s : State) (i : Nat) : Nat :=
  s.calls[i]?.elim 0 (Stage.rank s)

theorem rank_of_batch (hb : s.view Stage.batch? i = some b) : s.rank i = b.rank s := by
  obtain ⟨st, hi, hst⟩ := view_eq_some.mp hb
  rw [State.rank, hi, Option.elim_some]
  cases st with
  | compiling n g b' =>
    obtain rfl := Option.some.inj hst
    rfl
  | batch b' =>
    obtain rfl := Option.some.inj hst
    rfl
  | _ => cases hst

theorem BatchStage.rank_le {γ : Guard} (hγ : b.guard? = some γ) : b.rank s ≤ γ.flight + 2 := by
  cases b with
  | entering => cases hγ
  | following b rest deadline =>
    obtain rfl := Option.some.inj hγ
    exact Nat.le_refl _
  | building b submitted k deadline =>
    simp only [BatchStage.rank]
    split <;> omega
  | releasing =>
    simp only [BatchStage.rank]
    omega
  | _ => exact Nat.zero_le _

theorem State.rank_le_of_guard {γ : Guard} (hγ : s.view Stage.batchGuard? j = some γ) :
    s.rank j ≤ γ.flight + 2 := by
  obtain ⟨st, hj, hst⟩ := view_eq_some.mp hγ
  obtain ⟨b, hb, hguard⟩ := Option.bind_eq_some_iff.mp hst
  rw [rank_of_batch ((view_of_call hj).trans hb)]
  exact BatchStage.rank_le hguard

theorem Run.rank_of_leader (h : Run cfg (.fresh now store ttl) past s) (hj : s.Flies j f) :
    s.rank j < s.building.flights.length + 3 := by
  obtain ⟨γ, hγ, -⟩ := hj
  obtain ⟨st, hj, hst⟩ := view_eq_some.mp hγ
  -- without a batch it waits for nobody, with one at most for flights before its own
  cases hb : st.batch? with
  | none =>
    have hzero : s.rank j = 0 := by
      rw [State.rank, hj, Option.elim_some]
      cases st with
      | following => cases hst
      | _ => simp only [Stage.rank, hb, Option.elim_none]
    omega
  | some b =>
    have hview : s.view Stage.batch? j = some b := (view_of_call hj).trans hb
    cases hguard : b.guard? with
    | none =>
      rw [rank_of_batch hview]
      cases b with
      | entering =>
        simp only [BatchStage.rank]
        omega
      | _ => cases hguard
    | some δ =>
      have hle := State.rank_le_of_guard ((view_batchGuard? hview).trans hguard)
      have hpending := h.orderly.batches.pending ((view_batchGuard? hview).trans hguard)
      have hlt : δ.flight < s.building.flights.length := (List.getElem?_eq_some_iff.mp hpending).1
      omega

theorem Run.rank_lt (h : Run cfg (.fresh now store ttl) past s) (hw : s.WaitsFor i j) :
    s.rank j < s.rank i := by
  cases hw with
  | leader hi _ hj =>
    have hrank : s.rank i = s.building.flights.length + 3 := by
      rw [State.rank, hi]
      rfl
    rw [hrank]
    exact h.rank_of_leader hj
  | @flight b n f rest deadline γ hb _ hγ hf =>
    have hlt : f < b.claims.flight := h.awaits_lt hb List.mem_cons_self rfl
    have hrank : s.rank i = b.claims.flight + 2 := rank_of_batch hb
    have hle := State.rank_le_of_guard hγ
    omega
  | @compiler b submitted k deadline job b' submitted' k' deadline' hb hj hs ho hb' =>
    have hrank : s.rank i = 1 := by
      rw [rank_of_batch hb]
      simp [BatchStage.rank, hj, hs]
    -- whoever has the compiler is not queued
    have hrank' : s.rank j = 0 := by
      rw [rank_of_batch hb']
      obtain ⟨job', hj', hs'⟩ := h.occupied k' ho
      rcases hs' with hs' | ⟨p, hs'⟩
      · simp [BatchStage.rank, hj', hs']
      · simp [BatchStage.rank, hj', hs']
    omega
  | @table b hb hneeds hc =>
    have hrank : s.rank i = 1 := by
      rw [rank_of_batch hb]
      cases b with
      | entering => rfl
      | releasing => rfl
      | _ => cases hneeds
    -- whoever holds the table claims
    have hrank' : s.rank j = 0 := by
      obtain ⟨f, hf⟩ := h.isLocked.holder hc
      obtain ⟨st, hj, hst⟩ := view_eq_some.mp hf
      obtain ⟨b', hb', hf'⟩ := Option.bind_eq_some_iff.mp hst
      rw [rank_of_batch ((view_of_call hj).trans hb')]
      cases b' with
      | claiming => rfl
      | _ => cases hf'
    omega

theorem Run.rank_lt_of_chain (h : Run cfg (.fresh now store ttl) past s)
    (hw : Relation.TransGen s.WaitsFor i j) : s.rank j < s.rank i := by
  induction hw with
  | single hw => exact h.rank_lt hw
  | tail _ hw ih => exact Nat.lt_trans (h.rank_lt hw) ih

/-! ## Who waits can do nothing -/

theorem act_fetched_of_batch (hb : s.view Stage.batch? i = some b) (reply : FetchReply) :
    s.act cfg (.fetched i reply) = none := by
  obtain ⟨st, hi, hst⟩ := view_eq_some.mp hb
  rw [act, hi, Option.bind_some]
  cases st with
  | fetching => cases hst
  | _ => rfl

theorem not_canStep_of_batch (hb : s.view Stage.batch? i = some b)
    (hadvance : s.advanceBatch cfg i b = none)
    (hjob : ∀ {b' submitted k deadline}, b = .building b' submitted k deadline →
      s.act cfg (.prepare k) = none ∧ ∀ reply, s.act cfg (.built k reply) = none) :
    ¬ s.CanStep cfg i := by
  intro hstep
  cases hstep with
  | advance h =>
    obtain ⟨st, ha⟩ := act_advance_of_batch cfg hb
    rw [ha, hadvance] at h
    cases h
  | fetched h =>
    have hmissing := h .missing
    rw [act_fetched_of_batch hb] at hmissing
    cases hmissing
  | prepare hb' h =>
    rw [(hjob (Option.some.inj (hb.symm.trans hb'))).1] at h
    cases h
  | built hb' h =>
    have hcrashed := h .crashed
    rw [(hjob (Option.some.inj (hb.symm.trans hb'))).2] at hcrashed
    cases hcrashed

theorem State.WaitsFor.not_canStep (hw : s.WaitsFor i j) : ¬ s.CanStep cfg i := by
  -- each of its moves is refused until what it waits for has happened
  cases hw with
  | @leader n f timeout deadline hi hf =>
    have hbatch : ∀ {b}, s.view Stage.batch? i ≠ some b := by
      intro b hb
      rw [view_of_call hi] at hb
      cases hb
    intro hstep
    cases hstep with
    | advance h => simp [act, hi, State.advance, hf] at h
    | fetched h =>
      have hmissing := h .missing
      simp [act, hi, State.receiveFetch] at hmissing
    | prepare hb => exact hbatch hb
    | built hb => exact hbatch hb
  | flight hb hf =>
    refine not_canStep_of_batch hb ?_ fun he => by cases he
    simp [advanceBatch, hf]
  | @compiler b submitted k deadline job b' submitted' k' deadline' hb hj hs ho =>
    refine not_canStep_of_batch hb ?_ ?_
    · obtain ⟨units, skipped, stage⟩ := job
      obtain rfl : stage = .queued := hs
      simp [advanceBatch, hj]
    · intro b₁ submitted₁ k₁ deadline₁ he
      obtain ⟨-, -, rfl, -⟩ := BatchStage.building.inj he
      constructor
      · simp [act, hj, State.prepare, hs, ho]
      · intro reply
        simp [act, hj, State.finishJob, hs]
  | @table b hb hneeds hc =>
    cases b with
    | entering =>
      refine not_canStep_of_batch hb ?_ fun he => by cases he
      simp [advanceBatch, hc]
    | releasing =>
      refine not_canStep_of_batch hb ?_ fun he => by cases he
      simp [advanceBatch, hc]
    | _ => cases hneeds

theorem Run.unfinished_of_waits (h : Run cfg (.fresh now store ttl) past s) (hw : s.WaitsFor i j) :
    s.Unfinished i ∧ s.Unfinished j := by
  cases hw with
  | leader hi _ hj =>
    obtain ⟨γ, hγ, -⟩ := hj
    exact ⟨⟨_, hi, fun answer he => by cases he⟩, unfinished_of_view hγ fun _ => rfl⟩
  | flight hb _ hγ =>
    exact ⟨unfinished_of_view hb fun _ => rfl, unfinished_of_view hγ fun _ => rfl⟩
  | compiler hb _ _ _ hb' =>
    exact ⟨unfinished_of_view hb fun _ => rfl, unfinished_of_view hb' fun _ => rfl⟩
  | table hb _ hc =>
    obtain ⟨f, hf⟩ := h.isLocked.holder hc
    exact ⟨unfinished_of_view hb fun _ => rfl, unfinished_of_view hf fun _ => rfl⟩

/-! ## Where nobody gives up -/

def Action.limits? : Action → Option Limits
  | .call (.resolve _ limits) => some limits
  | .call (.compile _ limits) => some limits
  | _ => none

def Action.Unbounded (a : Action) : Prop :=
  ∀ limits ∈ a.limits?, limits = .unbounded

instance (a : Action) : Decidable a.Unbounded :=
  inferInstanceAs (Decidable (∀ limits ∈ a.limits?, limits = .unbounded))

def BatchStage.Patient : BatchStage → Prop
  | entering _ limits => limits.compile = none
  | claiming _ limits _ _ => limits.compile = none
  | following b _ _ => b.limits.compile = none
  | checking b _ _ => b.limits.compile = none
  | submitting b => b.limits.compile = none
  | building _ _ _ deadline => deadline = none
  | _ => True

def Stage.Patient : Stage → Prop
  | looking _ limits => limits.compile = none
  | missed _ limits => limits.compile = none
  | remembering _ limits => limits.compile = none
  | claiming _ limits => limits.compile = none
  | departing _ limits _ => limits.compile = none
  | fetching _ limits _ _ => limits.compile = none
  | compiling _ _ b => b.Patient
  | batch b => b.Patient
  | _ => True

theorem patient_endBatch {c : Claims} {e : BatchEnd} (hn : (endBatch c e).getLeft? = some b') :
    b'.Patient := by
  rw [endBatch_stage hn]
  exact trivial

theorem Onward.patient {b : Batch} {rest : List (Name × Nat)} (h : Onward now b rest next)
    (hb : b.limits.compile = none) (hn : next.getLeft? = some b') : b'.Patient := by
  rcases h.stage hn with ⟨-, rfl⟩ | ⟨_, rfl⟩ | rfl
  · exact hb
  · exact hb
  · exact trivial

theorem BatchMove.patient (hm : BatchMove cfg s i a b u next) (hb : b.Patient)
    (hn : next.getLeft? = some b') : b'.Patient := by
  cases hm with
  | claimed ho => exact ho.patient hb hn
  | join _ ho => exact ho.patient hb hn
  | takeOver _ ho => exact ho.patient hb hn
  | @submit b =>
    obtain rfl := Option.some.inj hn
    have hlimit : b.limits.compile = none := hb
    simp [BatchStage.Patient, hlimit]
  | receive =>
    obtain rfl := Option.some.inj hn
    exact trivial
  | release =>
    obtain rfl := Option.some.inj hn
    exact trivial
  | idle | fail | keep | conflict | expireWait | expireBuild => exact patient_endBatch hn
  | land => cases hn
  | _ =>
    obtain rfl := Option.some.inj hn
    exact hb

theorem Stage.patient_of_batch (hst : st.batch? = some b) : st.Patient ↔ b.Patient := by
  cases st with
  | compiling n g b' =>
    obtain rfl := Option.some.inj hst
    exact Iff.rfl
  | batch b' =>
    obtain rfl := Option.some.inj hst
    exact Iff.rfl
  | _ => cases hst

theorem patient_afterBatch {g : Guard} (h : ∀ b', next.getLeft? = some b' → b'.Patient) :
    (afterBatch n g next).Patient := by
  rcases next with b | e
  · exact h b rfl
  · cases e <;> exact trivial

theorem patient_afterOwnBatch (h : ∀ b', next.getLeft? = some b' → b'.Patient) :
    (afterOwnBatch next).Patient := by
  rcases next with b | e
  · exact h b rfl
  · exact trivial

theorem CallMove.patient (hm : CallMove cfg s i a st u st') (hst : st.Patient) : st'.Patient := by
  cases hm with
  | compile hb => exact patient_afterBatch fun b' hn => hb.patient hst hn
  | own hb => exact patient_afterOwnBatch fun b' hn => hb.patient hst hn
  | miss => exact hst
  | isRemote => exact hst
  | forgetful => exact hst
  | forgotten => exact hst
  | lead => exact hst
  | depart => exact hst
  | fetched => exact hst
  | _ => exact trivial

theorem Run.patient (h : Run cfg (.fresh now store ttl) past s)
    (hlimits : ∀ p ∈ past, p.2.Unbounded) (hi : s.calls[i]? = some st) : st.Patient := by
  have hcall : ∀ r : Request, (Action.call r).Unbounded → r.stage.Patient := by
    intro r hr
    cases r with
    | resolve n limits => exact congrArg Limits.compile (hr limits rfl)
    | compile units limits => exact congrArg Limits.compile (hr limits rfl)
    | _ => exact trivial
  obtain ⟨r, ⟨u, hu, -⟩, hst⟩ := Run.calls
    (P := fun _ r st => (Action.call r).Unbounded → st.Patient) rfl hcall
    (fun _ _ _ _ hm hst hr => hm.patient (hst hr)) (fun _ hP => hP) h hi
  exact hst (hlimits _ hu)

def State.Owned (s : State) : Prop :=
  ∀ (k : Nat) j, s.jobs[k]? = some j → (∀ reply, j.stage ≠ .returned reply) →
    ∃ i b submitted, s.view Stage.batch? i = some (.building b submitted k none)

theorem building_kept {b : Batch} {submitted : List Name} {j : Job}
    (ha : s.act cfg a = some t) (hb : s.view Stage.batch? i = some (.building b submitted k none))
    (hj : s.jobs[k]? = some j) (hr : ∀ reply, j.stage ≠ .returned reply) :
    t.view Stage.batch? i = some (.building b submitted k none) := by
  rcases (step_of_act ha).batch_before hb with hb' | ⟨u, next, st', hm, -, -⟩
  · exact hb'
  · cases hm with
    | receive hj' hs =>
      obtain rfl := Option.some.inj (hj.symm.trans hj')
      exact absurd hs (hr _)
    | fail hj' hs =>
      obtain rfl := Option.some.inj (hj.symm.trans hj')
      exact absurd hs (hr _)
    | expireBuild =>
      obtain ⟨st, hi, hst⟩ := view_eq_some.mp hb
      rw [act, hi, Option.bind_some, expire_of_batch? hst] at ha
      cases ha

theorem Run.owned (h : Run cfg (.fresh now store ttl) past s)
    (hlimits : ∀ p ∈ past, p.2.Unbounded) : s.Owned := by
  induction h with
  | start =>
    intro k j hj
    simp [State.fresh] at hj
  | @step past s a t h ha ih =>
    have howned := ih fun p hp => hlimits p (List.mem_append_left _ hp)
    intro k j hj hr
    have hkept : ∀ j₀, s.jobs[k]? = some j₀ → (∀ reply, j₀.stage ≠ .returned reply) →
        ∃ i b submitted, t.view Stage.batch? i = some (.building b submitted k none) := by
      intro j₀ hj₀ hr₀
      obtain ⟨i, b, submitted, hb⟩ := howned k j₀ hj₀ hr₀
      exact ⟨i, b, submitted, building_kept ha hb hj₀ hr₀⟩
    cases (step_of_act ha).job hj with
    | kept hj₀ => exact hkept j hj₀ hr
    | moved hj₀ hr₀ => exact hkept _ hj₀ hr₀
    | @made i b deadline _ hb =>
      -- whoever hands a job over sets no limit
      obtain ⟨st, hi, hst⟩ := view_eq_some.mp hb
      have hpatient := (Stage.patient_of_batch hst).mp ((h.step ha).patient hlimits hi)
      obtain rfl : deadline = none := hpatient
      exact ⟨i, b, _, hb⟩

theorem Run.waits_of_isQueued (h : Run cfg (.fresh now store ttl) past s)
    (hlimits : ∀ p ∈ past, p.2.Unbounded) (hi : s.IsQueued i) : ∃ j, s.WaitsFor i j := by
  obtain ⟨b, submitted, k, deadline, job, k', hb, hj, hs, ho⟩ := hi
  obtain ⟨job', hj', hs'⟩ := h.occupied k' ho
  have hr : ∀ reply, job'.stage ≠ .returned reply := by
    intro reply he
    rcases hs' with hs' | ⟨p, hs'⟩ <;> cases he.symm.trans hs'
  obtain ⟨j, b', submitted', hb'⟩ := h.owned hlimits k' job' hj' hr
  exact ⟨j, .compiler hb hj hs ho hb'⟩

theorem Run.canStep_iff (h : Run cfg (.fresh now store ttl) past s)
    (hlimits : ∀ p ∈ past, p.2.Unbounded) (hi : s.Unfinished i) :
    s.CanStep cfg i ↔ ¬ ∃ j, s.WaitsFor i j := by
  constructor
  · rintro hstep ⟨j, hw⟩
    exact hw.not_canStep hstep
  · intro hno
    rcases h.canStep_or_waits hi with hstep | hw | hq
    · exact hstep
    · exact absurd hw hno
    · exact absurd (h.waits_of_isQueued hlimits hq) hno

theorem Run.exists_canStep (h : Run cfg (.fresh now store ttl) past s)
    (hlimits : ∀ p ∈ past, p.2.Unbounded) (hi : s.Unfinished i) :
    ∃ j, s.Unfinished j ∧ s.CanStep cfg j := by
  generalize hr : s.rank i = r
  induction r using Nat.strongRecOn generalizing i with
  | ind r ih =>
    by_cases hw : ∃ j, s.WaitsFor i j
    · obtain ⟨j, hw⟩ := hw
      exact ih (s.rank j) (hr ▸ h.rank_lt hw) (h.unfinished_of_waits hw).2 rfl
    · exact ⟨i, hi, (h.canStep_iff hlimits hi).mpr hw⟩

/-- In every run in which callers set no limits, no call waits for itself, by however many others; an
unfinished call can go on exactly if it waits for nobody, and those who wait, and are waited for, are
unfinished; so while some call is unfinished, some unfinished call can go on. -/
theorem waits_acyclic (h : Run cfg (.fresh now store ttl) past s)
    (hlimits : ∀ p ∈ past, p.2.Unbounded) :
    (∀ i, ¬ Relation.TransGen s.WaitsFor i i) ∧
    (∀ i j, s.WaitsFor i j → s.Unfinished i ∧ s.Unfinished j) ∧
    (∀ i, s.Unfinished i → (s.CanStep cfg i ↔ ¬ ∃ j, s.WaitsFor i j)) ∧
    ((∃ i, s.Unfinished i) → ∃ j, s.Unfinished j ∧ s.CanStep cfg j) := by
  refine ⟨?_, ?_, ?_, ?_⟩
  · intro i hi
    exact Nat.lt_irrefl _ (h.rank_lt_of_chain hi)
  · intro i j hw
    exact h.unfinished_of_waits hw
  · intro i hi
    exact h.canStep_iff hlimits hi
  · rintro ⟨i, hi⟩
    exact h.exists_canStep hlimits hi

end

def oneAtATime : Settings := { Sample.settings with reentrant := false }

/-- A batch has the compiler, for which another waits. A lookup follows this one with its batch, and
another lookup follows the lookup. -/
def chained : List Action :=
  List.flatten
    [[.call (.compile [Sample.unit Sample.y] .unbounded)], List.replicate 4 (.advance 0),
      [.prepare 0, .prepare 0, .call (.compile [Sample.unit Sample.x] .unbounded)],
      List.replicate 4 (.advance 1), [.call (.resolve Sample.x .unbounded)],
      List.replicate 5 (.advance 2), [.fetched 2 (.unit (Sample.unit Sample.x))],
      List.replicate 3 (.advance 2), [.call (.resolve Sample.x .unbounded)],
      List.replicate 4 (.advance 3)]

theorem waits_acyclic_chained :
    ∃ past s, Run oneAtATime (.fresh 0 .empty none) past s ∧ (∀ p ∈ past, p.2.Unbounded) ∧
      s.WaitsFor 3 2 ∧ s.WaitsFor 2 1 ∧ s.WaitsFor 1 0 ∧ ¬ s.CanStep oneAtATime 3 ∧
      (∀ i, ¬ Relation.TransGen s.WaitsFor i i) ∧ ∃ j, s.Unfinished j ∧ s.CanStep oneAtATime j := by
  -- a lookup behind a lookup, behind a batch, behind the job that has the compiler
  have hperform : ((State.fresh 0 .empty none).perform oneAtATime chained).any fun r =>
      (∀ p ∈ r.1, p.2.Unbounded) ∧
      (r.2.calls[3]? = some (.following Sample.x 0 none none) ∧
        r.2.resolving.flight? 0 = some .pending ∧
        r.2.view Stage.lookupGuard? 2 = some ⟨0, [Sample.x]⟩) ∧
      (r.2.view Stage.batch? 2 = some (.following ⟨[Sample.unit Sample.x], .unbounded,
          ⟨2, [], [(Sample.x, 1)], []⟩, [], []⟩ [(Sample.x, 1)] none) ∧
        r.2.building.flight? 1 = some .pending ∧
        r.2.view Stage.batchGuard? 1 = some ⟨1, [Sample.x]⟩) ∧
      (r.2.view Stage.batch? 1 = some (.building ⟨[Sample.unit Sample.x], .unbounded,
          ⟨1, [], [], [Sample.x]⟩, [Sample.x], []⟩ [Sample.x] 1 none) ∧
        r.2.jobs[1]? = some ⟨[Sample.unit Sample.x], 0, .queued⟩ ∧ r.2.occupant = some 0 ∧
        r.2.view Stage.batch? 0 = some (.building ⟨[Sample.unit Sample.y], .unbounded,
          ⟨0, [], [], [Sample.y]⟩, [Sample.y], []⟩ [Sample.y] 0 none)) := by
    decide +kernel
  obtain ⟨past, s, hrun, hlimits, ⟨hfollows, hleads, hleader⟩, ⟨hbatch, hflight, hholder⟩,
    hqueued, hjob, hoccupant, hrunning⟩ := Run.of_any hperform
  have hlookup : s.WaitsFor 3 2 := .leader hfollows hleads ⟨_, hleader, rfl⟩
  have hclaim : s.WaitsFor 2 1 := .flight hbatch hflight hholder rfl
  have hgate : s.WaitsFor 1 0 := .compiler hqueued hjob rfl hoccupant hrunning
  obtain ⟨hacyclic, hunfinished, hsteps, hprogress⟩ := waits_acyclic hrun hlimits
  have hlast : s.Unfinished 3 := (hunfinished 3 2 hlookup).1
  exact ⟨past, s, hrun, hlimits, hlookup, hclaim, hgate,
    fun hstep => (hsteps 3 hlast).mp hstep ⟨2, hlookup⟩, hacyclic, hprogress ⟨3, hlast⟩⟩

end OnDemand.Engine
