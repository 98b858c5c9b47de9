import OnDemand.Proofs.Engine.Completion
import OnDemand.Proofs.Engine.Publication

/-!
# Claims are settled

Whoever takes a claim ends it with an outcome for those who wait for it: a batch that leads a name
has something to hand to the compiler, so it does not end before it has an outcome. A flight is given
up without one only where the clock cannot show a moment that is asked of it, and when every call has
answered nothing is in flight (`claims_settled`).
-/

namespace OnDemand.Engine

open State FlightTable

/-! ## Moments that the clock cannot show -/

def Stage.failure? : Stage → Option CallError
  | recording _ _ (.failed e) => some e
  | _ => none

/-- A lookup remembers a failure whose expiry the clock cannot show. -/
def State.Outlasts (s : State) (a : Action) : Prop :=
  ∃ i e f, a = .advance i ∧ s.view Stage.failure? i = some e ∧ e.isLasting = true ∧
    s.failures = some f ∧ Moment.after? s.now f.ttl = none

/-- The clock cannot show a moment that is asked of it: the end of a wait that a batch begins, or the
expiry of a failure. -/
def State.Overflows (s : State) (a : Action) : Prop :=
  s.Overruns a ∨ s.Outlasts a

instance (s : State) : (a : Action) → Decidable (s.Outlasts a)
  | .advance i =>
    decidable_of_iff (∃ e ∈ s.view Stage.failure? i, e.isLasting = true ∧
      ∃ f ∈ s.failures, Moment.after? s.now f.ttl = none) (by simp [State.Outlasts])
  | .call _ | .expire _ | .fetched _ _ | .prepare _ | .built _ _ | .founder _ | .put _ | .putAll _
  | .forget _ | .clearFailures | .elapse _ => isFalse (by simp [State.Outlasts])

instance (s : State) (a : Action) : Decidable (s.Overflows a) :=
  inferInstanceAs (Decidable (_ ∨ _))

/-! ## Endings with an outcome -/

def BatchEnd.error? : BatchEnd → Option CallError
  | failed e => some e
  | _ => none

/-- The end of a batch is an outcome for those who follow it. -/
def BatchEnd.Lands (e : BatchEnd) : Prop :=
  flightOf e = .landed e.error?

def BatchStage.Lands : BatchStage → Prop
  | releasing _ e => e.Lands
  | landing _ e => e.Lands
  | _ => True

def Stage.Lands : Stage → Prop
  | releasing _ e => ∃ r, e = .resolved r
  | landing _ e => ∃ r, e = .resolved r
  | _ => True

/-- What becomes of a batch in a move: it goes on, and lands its flight if it has come to an end, or
it has returned and the clock was able to show what it was asked. -/
def LandsNext (next : BatchStage ⊕ BatchEnd) : Prop :=
  next.elim BatchStage.Lands fun e => ∀ o, e ≠ .overflowed o

section
variable {cfg : Settings} {now : Moment} {store : Store} {ttl : Option Duration}
  {past : List (State × Action)} {s t : State} {a : Action} {i f : Nat} {n : Name}
  {b : BatchStage} {next : BatchStage ⊕ BatchEnd} {st st' : Stage}

theorem BatchEnd.lands_failed (e : CallError) : (BatchEnd.failed e).Lands := rfl

theorem BatchEnd.lands_reported {r : Report} (hr : r.submitted ≠ []) :
    (BatchEnd.reported r).Lands := by
  rw [BatchEnd.Lands, flightOf, if_neg (by simpa using hr)]
  rfl

theorem BatchEnd.lands_of_ne {e : BatchEnd} (he : flightOf e ≠ .abandoned) : e.Lands := by
  cases e with
  | reported r =>
    refine BatchEnd.lands_reported fun hr => he ?_
    rw [flightOf, if_pos (by simpa using hr)]
  | failed e => exact BatchEnd.lands_failed e
  | overflowed o => exact absurd rfl he

theorem BatchEnd.Lands.shown {e : BatchEnd} (h : e.Lands) (o : Overflow) : e ≠ .overflowed o := by
  rintro rfl
  cases h

theorem landsNext_endBatch {c : Claims} {e : BatchEnd} (hled : c.led ≠ [] → e.Lands)
    (hshown : ∀ o, e ≠ .overflowed o) : LandsNext (endBatch c e) := by
  unfold endBatch Claims.guard?
  by_cases hc : c.led = []
  · rw [if_pos (by simpa using hc)]
    exact hshown
  · rw [if_neg (by simpa using hc)]
    exact hled hc

theorem landsNext_failed {c : Claims} {e : CallError} : LandsNext (endBatch c (.failed e)) :=
  landsNext_endBatch (fun _ => BatchEnd.lands_failed e) (BatchEnd.lands_failed e).shown

theorem Onward.landsNext {b : Batch} {rest : List (Name × Nat)} (h : Onward now b rest next)
    (hno : ¬ (rest ≠ [] ∧ ∃ limit, b.limits.compile = some limit ∧
      Moment.after? now limit = none)) : LandsNext next := by
  cases h with
  | submit => exact trivial
  | wait => exact trivial
  | overflow p rest hlimit hnow => exact absurd ⟨List.cons_ne_nil _ _, _, hlimit, hnow⟩ hno

/-! ## Batches -/

/-- A batch that leads a name has something to hand to the compiler: it has asked for the name, and
the store lacked it. -/
theorem Run.submission_ne_nil {b : Batch} (h : Run cfg (.fresh now store ttl) past s)
    (hi : s.view Stage.batch? i = some (.submitting b)) (hled : b.claims.led ≠ []) :
    b.submission ≠ [] := by
  obtain ⟨n, hn⟩ := List.exists_mem_of_ne_nil _ hled
  have hr := h.recorded (State.ledger?_of_batch hi)
  have hsubmitted := (h.mem_submission_iff hi).mpr ⟨false, (hr.led n).mp hn⟩
  intro hnil
  rw [hnil] at hsubmitted
  cases hsubmitted

theorem BatchMove.lands (h : Run cfg (.fresh now store ttl) past s)
    (hb : s.view Stage.batch? i = some b) (hm : BatchMove cfg s i a b t next)
    (hno : ¬ s.Overruns a) (hl : b.Lands) : LandsNext next := by
  have hno : a = .advance i → ¬ b.Overruns s.now := fun ha ho => hno ⟨i, b, ha, hb, ho⟩
  cases hm with
  | claimed ho => exact ho.landsNext (hno rfl)
  | join _ ho => exact ho.landsNext (hno rfl)
  | takeOver _ ho => exact ho.landsNext (hno rfl)
  | idle hs =>
    exact landsNext_endBatch (fun hled => absurd hs (h.submission_ne_nil hb hled)) (by simp)
  | keep =>
    -- what it has stored was made of what it has handed over
    have hmade : Made past i _ _ := h.based hb
    exact landsNext_endBatch (fun _ => BatchEnd.lands_reported hmade.ne_nil) (by simp)
  | fail => exact landsNext_failed
  | conflict => exact landsNext_failed
  | expireWait => exact landsNext_failed
  | expireBuild => exact landsNext_failed
  | release => exact hl
  | land => exact hl.shown
  | _ => exact trivial

/-! ## Lookups -/

theorem record_lands {r : Resolution} {g : Guard} (hi : s.calls[i]? = some (.recording n g r))
    (hno : ¬ s.Outlasts (.advance i)) : (s.record n r).2 = .resolved r := by
  unfold State.record
  split
  · rename_i failures e hf
    unfold Failures.record
    by_cases he : e.isLasting = true
    · cases hnow : Moment.after? s.now failures.ttl with
      | some expires => simp [he]
      | none =>
        exact absurd ⟨i, e, failures, rfl, by rw [view_of_call hi, Stage.failure?], he, hf, hnow⟩ hno
    · simp [he]
  · rfl

theorem lands_afterBatch (n : Name) (g : Guard) (h : LandsNext next) : (afterBatch n g next).Lands := by
  rcases next with b | e
  · exact trivial
  · cases e with
    | overflowed o => exact absurd rfl (h o)
    | _ => exact trivial

theorem CallMove.lands (h : Run cfg (.fresh now store ttl) past s) (hi : s.calls[i]? = some st)
    (hm : CallMove cfg s i a st t st') (hno : ¬ s.Overflows a) (hl : st.Lands)
    (hb : ∀ b, s.view Stage.batch? i = some b → b.Lands) : st'.Lands := by
  cases hm with
  | compile hbm =>
    have hview := view_of_call (f := Stage.batch?) hi
    exact lands_afterBatch _ _ (hbm.lands h hview (fun ho => hno (Or.inl ho)) (hb _ hview))
  | record => exact ⟨_, record_lands hi fun ho => hno (Or.inr ho)⟩
  | release => exact hl
  | @own _ _ _ next => rcases next with b | e <;> exact trivial
  | _ => exact trivial

/-! ## Tables without lost flights -/

def Intact {α : Type} (t : FlightTable α) : Prop :=
  ∀ f, t.flight? f ≠ some .abandoned

theorem Intact.congr {α : Type} {t t' : FlightTable α} (h : Intact t) (he : t' = t) : Intact t' := by
  rw [he]
  exact h

theorem Intact.begin {α : Type} {t : FlightTable α} (h : Intact t) : Intact t.begin.2 := by
  intro f
  by_cases hf : f = t.begin.1
  · subst hf
    simp [flight?_begin_self]
  · rw [flight?_begin_ne hf]
    exact h f

theorem Intact.settle {α : Type} {t : FlightTable α} (h : Intact t) (f : Nat) (value : α) :
    Intact (t.settle f (.landed value)) := by
  intro f'
  by_cases hp : t.flight? f = some .pending
  · by_cases hf : f' = f
    · subst hf
      simp [flight?_settle_self _ hp]
    · rw [flight?_settle_ne _ hf]
      exact h f'
  · rw [settle_ended _ hp]
    exact h f'

theorem BatchMove.intact (hm : BatchMove cfg s i a b t next) (hl : b.Lands)
    (h : Intact s.building) : Intact t.building := by
  cases hm with
  | enter => exact h.begin
  | land =>
    have he := hl
    show Intact (s.building.settle _ (flightOf _))
    rw [show flightOf _ = _ from he]
    exact h.settle _ _
  | idle _ hq => exact h.congr hq.building
  | fail _ _ _ hq => exact h.congr hq.building
  | conflict _ hq => exact h.congr hq.building
  | expireWait _ hq => exact h.congr hq.building
  | expireBuild hq => exact h.congr hq.building
  | _ => exact h

theorem CallMove.intact (hm : CallMove cfg s i a st t st') (hl : st.Lands)
    (h : Intact s.resolving) : Intact t.resolving := by
  cases hm with
  | peek => exact h.congr (quiet_read _ _ _).resolving
  | hit => exact h.congr (quiet_tellLookup _ _ _).resolving
  | isRemote => exact h.congr (quiet_tellLookup _ _ _).resolving
  | isLocal => exact h.congr (quiet_tellLookup _ _ _).resolving
  | follow => exact h.begin
  | followOverflow => exact h.begin
  | skip => exact h.begin
  | lead => exact h.begin
  | reread => exact h.congr (quiet_read _ _ _).resolving
  | compile hb => exact h.congr hb.frame.resolving
  | recheck => exact h.congr (quiet_read _ _ _).resolving
  | record => exact h.congr (quiet_record _ _ _).resolving
  | land =>
    obtain ⟨r, rfl⟩ := hl
    exact h.settle _ r
  | own hb => exact h.congr hb.frame.resolving
  | expireWait _ hq => exact h.congr hq.resolving
  | expireFetch hq => exact h.congr hq.resolving
  | unfetched hq => exact h.congr hq.resolving
  | _ => exact h

/-! ## Runs -/

/-- Every flight that has ended has an outcome, and so will those that are about to end. -/
structure Outspoken (s : State) : Prop where
  lookups : ∀ (i : Nat) st, s.calls[i]? = some st → st.Lands
  batches : ∀ i b, s.view Stage.batch? i = some b → b.Lands
  resolving : Intact s.resolving
  building : Intact s.building

theorem Outspoken.step (h : Outspoken s) (hr : Run cfg (.fresh now store ttl) past s)
    (hst : Step cfg s a t) (hno : ¬ s.Overflows a) : Outspoken t where
  lookups := by
    intro i st' hi
    rcases hst.call_after hi with hi | ⟨-, r, -, rfl⟩ | ⟨st, u, hi, hm, -⟩
    · exact h.lookups i st' hi
    · cases r <;> exact trivial
    · exact hm.lands hr hi hno (h.lookups i st hi) (h.batches i)
  batches := by
    intro i b' hb'
    rcases hst.batch_after hb' with hb | ⟨_, _, rfl⟩ | ⟨b, u, next, _, hb, hm, hn, -⟩
    · exact h.batches i b' hb
    · exact trivial
    · have hnext := hm.lands hr hb (fun ho => hno (Or.inl ho)) (h.batches i b hb)
      rw [Sum.getLeft?_eq_some_iff.mp hn] at hnext
      exact hnext
  resolving := by
    cases hst with
    | move hc hm => exact hm.intact (h.lookups _ _ hc) h.resolving
    | launch _ _ hq => exact h.resolving.congr hq.resolving
    | quiet _ hq => exact h.resolving.congr hq.resolving
    | _ => exact h.resolving
  building := by
    cases hst with
    | @move i _ st u _ hc hm =>
      show Intact u.building
      -- a batch lands what it has come to, and no other move ends a build's flight
      rcases hm.batch_or_apart with ⟨b, next, hb, hbm, -⟩ | hap
      · exact hbm.intact (h.batches i b ((view_of_call hc).trans hb)) h.building
      · exact h.building.congr hap.building
    | launch _ _ hq => exact h.building.congr hq.building
    | quiet _ hq => exact h.building.congr hq.building
    | _ => exact h.building

theorem Run.outspoken (h : Run cfg (.fresh now store ttl) past s)
    (hno : ∀ p ∈ past, ¬ p.1.Overflows p.2) : Outspoken s := by
  induction h with
  | start =>
    constructor
    · intro i st hi
      simp [State.fresh] at hi
    · intro i b hb
      rw [view_fresh] at hb
      cases hb
    · intro f hf
      simp [State.fresh, FlightTable.empty, flight?] at hf
    · intro f hf
      simp [State.fresh, FlightTable.empty, flight?] at hf
  | @step past s a t hr ha ih =>
    exact (ih fun p hp => hno p (List.mem_append_left _ hp)).step hr (step_of_act ha)
      (hno (s, a) (by simp))

/-! ## What becomes of a claim -/

/-- A batch has a flight that it has not ended. -/
def State.Carries (s : State) (i f : Nat) : Prop :=
  ∃ b, s.view Stage.batch? i = some b ∧ b.Carries f

theorem Step.carries (h : Step cfg s a t) (hact : s.act cfg a = some t) (hs : Orderly s)
    (hc : s.Carries i f) :
    t.Carries i f ∨ ∃ e, Returned cfg [(s, a)] i e ∧ t.building.flight? f = some (flightOf e) := by
  obtain ⟨b, hb, hc⟩ := hc
  obtain ⟨st, hi, hst⟩ := view_eq_some.mp hb
  by_cases hmover : a.mover? = some i
  · obtain ⟨u, next, hmove, hm, rfl⟩ := State.batchMove?_of_act hi hst hmover hact
    rcases hm.carries hc with ⟨b', hn, hc'⟩ | ⟨e, rfl, hu⟩
    · refine Or.inl ⟨b', ?_, hc'⟩
      have hcall : u.calls[i]? = some st := by
        rw [hm.frame.calls]
        exact hi
      rw [State.view, calls_setCall hcall, if_pos rfl, Option.bind_some, batch?_resume, hn]
    · obtain ⟨γ, hγ, rfl⟩ := hc.guard?
      refine Or.inr ⟨e, ⟨(s, a), by simp, hmover, u, hmove⟩, ?_⟩
      rw [setCall_building, hu]
      exact flight?_settle_self _ (hs.batches.pending ((view_batchGuard? hb).trans hγ))
  · refine Or.inl ⟨b, ?_, hc⟩
    rcases h.call_before hi with ⟨-, hi'⟩ | ⟨u, st', hm, -⟩
    · exact (view_of_call hi').trans hst
    · exact absurd hm.mover hmover

theorem Returned.mono {past' : List (State × Action)} {e : BatchEnd} (h : Returned cfg past i e)
    (hsub : past ⊆ past') : Returned cfg past' i e := by
  obtain ⟨p, hp, hmove⟩ := h
  exact ⟨p, hsub hp, hmove⟩

/-- A name that a batch has claimed is in a flight that the batch has not ended, or has ended with
what it has returned. -/
theorem Run.batch_fate (h : Run cfg (.fresh now store ttl) past s) {u : State}
    (hu : u ∈ visited past s) (hc : u.Carries i f) :
    s.Carries i f ∨ ∃ e, Returned cfg past i e ∧ s.building.flight? f = some (flightOf e) := by
  obtain ⟨before, after, rfl, hbefore, hafter⟩ := h.upto_visited hu
  clear h hu
  induction hafter with
  | start => exact Or.inl hc
  | @step after s a t hr ha ih =>
    have hst := step_of_act ha
    rcases ih with hcs | ⟨e, hret, hf⟩
    · rcases hst.carries ha (hbefore.append hr).orderly hcs with hct | ⟨e, hret, hf⟩
      · exact Or.inl hct
      · exact Or.inr ⟨e, hret.mono (by simp), hf⟩
    · refine Or.inr ⟨e, hret.mono (by simp), hst.batch_ended hf (flightOf_ne_pending e)⟩

theorem State.Settled.claimed (h : s.Settled) (hs : Orderly s) :
    s.resolving.claimed = [] ∧ s.building.claimed = [] := by
  have hnone : ∀ {f : Stage → Option Guard}, (∀ answer, f (.finished answer) = none) →
      ∀ i n fl, ¬ Has (s.view f i) n fl := by
    rintro f hf i n fl ⟨γ, hγ, -⟩
    obtain ⟨st, hi, hst⟩ := view_eq_some.mp hγ
    obtain ⟨answer, rfl⟩ := h i st hi
    rw [hf answer] at hst
    cases hst
  constructor
  · refine List.eq_nil_iff_forall_not_mem.mpr fun ⟨n, f⟩ hmem => ?_
    obtain ⟨i, hi⟩ := hs.lookups.claimed_iff.mp hmem
    exact hnone (fun _ => rfl) i n f hi
  · refine List.eq_nil_iff_forall_not_mem.mpr fun ⟨n, f⟩ hmem => ?_
    obtain ⟨i, hi⟩ := hs.batches.claimed_iff.mp hmem
    exact hnone (fun _ => rfl) i n f hi

/-- In a run in which the clock can show every moment that is asked of it: a call that has led a
lookup has not ended its flight yet, or has ended it with its answer; a call that has claimed a name
for a batch has not ended the flight yet, or has ended it with the error that its batch has returned,
if any; nobody who follows a flight sees it given up; and when every call has answered, no name is
in flight. -/
theorem claims_settled (h : Run cfg (.fresh now store ttl) past s)
    (hno : ∀ p ∈ past, ¬ p.1.Overflows p.2) :
    (∀ u ∈ visited past s, ∀ i n f, u.Leads i n f →
      s.Flies i f ∨ ∃ r, s.calls[i]? = some (resolved r) ∧
        s.resolving.flight? f = some (.landed r)) ∧
    (∀ u ∈ visited past s, ∀ i n f, Has (u.view Stage.batchGuard? i) n f →
      s.Carries i f ∨ ∃ e, Returned cfg past i e ∧
        s.building.flight? f = some (.landed e.error?)) ∧
    (∀ f, s.resolving.flight? f ≠ some .abandoned ∧ s.building.flight? f ≠ some .abandoned) ∧
    (s.Settled → s.resolving.claimed = [] ∧ s.building.claimed = []) := by
  have hout := h.outspoken hno
  refine ⟨fun u hu i n f hl => ?_, fun u hu i n f hhas => ?_,
    fun f => ⟨hout.resolving f, hout.building f⟩, fun hs => hs.claimed h.orderly⟩
  · rcases h.fate hu hl with hp | ⟨e, hi, hf⟩
    · exact Or.inl hp.flies
    · cases e with
      | resolved r => exact Or.inr ⟨r, hi, hf⟩
      | overflowed o => exact absurd hf (hout.resolving f)
  · rcases h.batch_fate hu (carries_of_batchGuard hhas) with hc | ⟨e, hret, hf⟩
    · exact Or.inl hc
    · have hlands : e.Lands := BatchEnd.lands_of_ne fun he => hout.building f (he ▸ hf)
      exact Or.inr ⟨e, hret, hlands ▸ hf⟩

end

/-- Two lookups of `x`, whose fetch crashes, then a batch of `x`, whose compilation crashes, and one
of `x` and `y`, which gives up its wait for the first. -/
def crashing : List Action :=
  List.flatten
    [[.call (.resolve Sample.x .unbounded), .call (.resolve Sample.x .unbounded)],
      List.replicate 5 (.advance 0), List.replicate 4 (.advance 1), [.fetched 0 .crashed],
      List.replicate 3 (.advance 0), [.advance 1],
      [.call (.compile [Sample.unit Sample.x, Sample.unit Sample.x] .unbounded),
        .call (.compile [Sample.unit Sample.x, Sample.unit Sample.y] ⟨none, some .zero⟩)],
      List.replicate 4 (.advance 2), List.replicate 4 (.advance 3),
      [.expire 3, .advance 3, .advance 3, .prepare 0, .built 0 .crashed],
      List.replicate 3 (.advance 2)]

theorem claims_settled_crashing :
    ∃ past s, Run Sample.settings (.fresh 0 .empty (some .zero)) past s ∧
      (∀ p ∈ past, ¬ p.1.Overflows p.2) ∧
      s.calls[0]? = some (resolved (.failed (.abandoned .fetch))) ∧
      s.resolving.flight? 0 = some (.landed (.failed (.abandoned .fetch))) ∧
      (∃ e, Returned Sample.settings past 2 e ∧ s.building.flight? 0 = some (.landed e.error?)) ∧
      (∃ e, Returned Sample.settings past 3 e ∧ s.building.flight? 1 = some (.landed e.error?)) ∧
      s.resolving.claimed = [] ∧ s.building.claimed = [] := by
  have hperform : ((State.fresh 0 .empty (some .zero)).perform Sample.settings crashing).any fun r =>
      (∀ p ∈ r.1, ¬ p.1.Overflows p.2) ∧
      r.2.calls = [resolved (.failed (.abandoned .fetch)), resolved (.failed (.abandoned .fetch)),
        .finished (.batch (.failed (.abandoned .compile))),
        .finished (.batch (.failed (.timedOut .wait .zero)))] ∧
      (∃ u ∈ visited r.1 r.2, u.view Stage.attempt? 0 = some (Sample.x, 0)) ∧
      (∃ u ∈ visited r.1 r.2, u.view Stage.batchGuard? 2 = some ⟨0, [Sample.x]⟩) ∧
      ∃ u ∈ visited r.1 r.2, u.view Stage.batchGuard? 3 = some ⟨1, [Sample.y]⟩ := by
    decide +kernel
  obtain ⟨past, s, hrun, hno, hcalls, ⟨u, hu, hleads⟩, ⟨v, hv, hx⟩, ⟨w, hw, hy⟩⟩ := Run.of_any hperform
  have hsettled : s.Settled := by
    intro i st hi
    rw [hcalls] at hi
    have := List.mem_of_getElem? hi
    simp only [resolved, List.mem_cons, List.not_mem_nil, or_false] at this
    rcases this with rfl | rfl | rfl | rfl <;> exact ⟨_, rfl⟩
  -- every call has answered, so no batch carries a flight
  have hgone : ∀ i f, ¬ s.Carries i f := by
    rintro i f ⟨b, hb, -⟩
    obtain ⟨st, hi, hst⟩ := view_eq_some.mp hb
    obtain ⟨answer, rfl⟩ := hsettled i st hi
    cases hst
  obtain ⟨hlookups, hbatches, -, hempty⟩ := claims_settled hrun hno
  have hfirst : s.calls[0]? = some (resolved (.failed (.abandoned .fetch))) := by
    rw [hcalls]
    rfl
  refine ⟨past, s, hrun, hno, hfirst, ?_, ?_, ?_, hempty hsettled⟩
  · rcases hlookups u hu 0 _ _ hleads with ⟨γ, hγ, -⟩ | ⟨r, hr, hf⟩
    · rw [view_of_call hfirst] at hγ
      cases hγ
    · rw [hfirst] at hr
      cases hr
      exact hf
  · exact (hbatches v hv 2 Sample.x 0 ⟨_, hx, rfl, by simp⟩).resolve_left (hgone 2 0)
  · exact (hbatches w hw 3 Sample.y 1 ⟨_, hy, rfl, by simp⟩).resolve_left (hgone 3 1)

end OnDemand.Engine
