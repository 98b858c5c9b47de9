import OnDemand.Proofs.Engine.Report
import OnDemand.Proofs.Engine.Lone

/-!
# Compiling again

A compiler that leaves out none of the names it is given makes every requested name of a reported
batch stored (`Run.stored_of_reported`). What is stored when a call is made is not handed over for
it (`Run.not_handed`), and a batch of stored names that nobody else is at work beside goes through
its claim without a job (`Repeats`).
-/

namespace OnDemand.Engine

open State FlightTable

/-- The output that a job ends with in this move, if any, has each name of the job. -/
def State.Thorough (s : State) : Action → Prop
  | .built k (.output o) =>
    ∀ j ∈ s.jobs[k]?, ∀ u ∈ j.units, ∃ a ∈ o.artifacts, a.name = u.name
  | _ => True

instance (s : State) (a : Action) : Decidable (s.Thorough a) :=
  match a with
  | .built k (.output o) => inferInstanceAs (Decidable
      (∀ j ∈ s.jobs[k]?, ∀ u ∈ j.units, ∃ a ∈ o.artifacts, a.name = u.name))
  | .built _ (.failed _) | .built _ .crashed | .founder _ | .call _ | .advance _ | .expire _
  | .fetched _ _ | .prepare _ | .put _ | .putAll _ | .forget _ | .clearFailures | .elapse _ =>
    isTrue trivial

section
variable {cfg : Settings} {now : Moment} {store : Store} {ttl : Option Duration}
  {past after : List (State × Action)} {s t u : State} {a : Action} {i j k : Nat} {n : Name}
  {r : Report} {b : Batch} {names : List Name}

/-! ## What a report says is stored -/

theorem Ledger.Recorded.found_stored {l : Ledger} (hr : l.Recorded past i)
    (h : Run cfg (.fresh now store ttl) past s) (hn : n ∈ l.found) :
    s.store.contains n = true := by
  obtain ⟨w, hlook⟩ := (hr.found n).mp hn
  obtain ⟨u, hu, hstored⟩ := hlook.visited (s := s)
  exact (h.extends hu).contains hstored

theorem Hired.thorough {submitted : List Name} {job : Job} {o : BuildOutput}
    (hired : Hired past s i b submitted k job) (hjob : job.stage = .returned (.ended (.output o)))
    (h : Run cfg (.fresh now store ttl) past s) (hall : ∀ p ∈ past, p.1.Thorough p.2)
    (hn : n ∈ submitted) : ∃ a ∈ o.artifacts, a.name = n := by
  obtain ⟨w, hw⟩ := h.built hired.job hjob
  obtain ⟨_, after, v, rfl, -, hact, hafter⟩ := h.split hw
  simp only [act, Option.bind_eq_some_iff] at hact
  obtain ⟨j₀, hj₀, hfinish⟩ := hact
  have hact : w.act cfg (.built k (.output o)) = some v := by simp [act, hj₀, hfinish]
  obtain ⟨j₁, hj₁, hunits, -⟩ := ((Run.single hact).append hafter).job_kept hj₀
  obtain rfl := Option.some.inj (hj₁.symm.trans hired.job)
  rw [← hired.names, ← hired.units, hunits] at hn
  obtain ⟨x, hx, rfl⟩ := List.mem_map.mp hn
  exact hall _ hw j₀ hj₀ x hx

/-- After a report each requested name is stored, if the compiler leaves none out. -/
theorem Run.stored_of_reported (h : Run cfg (.fresh now store ttl) past s)
    (hall : ∀ p ∈ past, p.1.Thorough p.2) (hr : Returned cfg past i (.reported r))
    (hn : n ∈ r.requested) : s.store.contains n = true := by
  obtain ⟨before, v, bs, t, after, rfl, hbefore, hact, hafter, hview, hreports, -, -⟩ :=
    h.reported hr
  have hv : s.store.Extends v.store := h.extends (mem_visited.mpr (Or.inr ⟨.advance i, by simp⟩))
  have ht : s.store.Extends t.store := hafter.extends hafter.start_visited
  generalize hfinal : t.store = final at hreports
  -- a requested name was found stored, or was submitted and has been made
  cases hreports with
  | @idle b hnil =>
    have hrec := hbefore.recorded (State.ledger?_of_batch hview)
    rcases hrec.mem_requested.mp hn with hf | hl | hw
    · exact hv.contains (hrec.found_stored hbefore hf)
    · have hsub := Batch.mem_submission.mpr ⟨hn, hl⟩
      rw [hnil] at hsub
      cases hsub
    · cases hw
  | @kept b submitted o produced _ hput =>
    have hrec := hbefore.recorded (State.ledger?_of_batch hview)
    obtain ⟨k, job, hired, hreturned⟩ := hbefore.hiring_of_view hview
    rcases hrec.mem_requested.mp hn with hf | hl | hw
    · exact hv.contains (hrec.found_stored hbefore hf)
    · have hsub : n ∈ submitted := by
        rw [← hired.names]
        exact Batch.mem_submission.mpr ⟨hn, hl⟩
      obtain ⟨x, hx, rfl⟩ :=
        hired.thorough hreturned hbefore (fun p hp => hall p (by simp [hp])) hsub
      rw [← hfinal] at hput
      exact ht.contains (Store.contains_of_putAll hput hx)
    · cases hw

theorem Run.submitted_requested (h : Run cfg (.fresh now store ttl) past s)
    (hr : Returned cfg past i (.reported r)) (hn : n ∈ r.submitted) : n ∈ r.requested := by
  obtain ⟨before, v, bs, t, after, rfl, hbefore, -, -, hview, hreports, -, -⟩ := h.reported hr
  generalize t.store = final at hreports
  cases hreports with
  | idle => cases hn
  | kept =>
    obtain ⟨k, job, hired, -⟩ := hbefore.hiring_of_view hview
    obtain rfl := hired.names
    exact (Batch.mem_submission.mp hn).1

/-! ## What is stored is not handed over -/

theorem Run.call_kept (h : Run cfg s past t) (hi : i < s.calls.length) : i < t.calls.length := by
  induction h with
  | start => exact hi
  | step _ ha ih => exact (step_of_act ha).call_kept ih

/-- A call that is made when a name is stored does not hand it over. -/
theorem Run.not_handed {q : Request} (h : Run cfg (.fresh now store ttl) past s)
    (hn : s.store.contains n = true) (hafter : Run cfg s after t) (hj : Called after j q)
    (hhanded : Handed (past ++ after) j b k) : n ∉ b.submission.map (·.name) := by
  have hlen : s.calls.length ≤ j := by
    obtain ⟨v, hv, rfl⟩ := hj
    obtain ⟨_, _, _, -, hrun, -, -⟩ := hafter.split hv
    by_contra hlt
    exact Nat.lt_irrefl _ (hrun.call_kept (Nat.lt_of_not_le hlt))
  obtain ⟨-, v, hv, hview, -⟩ := hhanded
  intro hsub
  obtain ⟨before, later, _, hsplit, hbefore, -, -⟩ := (h.append hafter).split hv
  obtain ⟨w, ⟨⟨x, a⟩, hx, hlook⟩⟩ := (hbefore.mem_submission_iff hview).mp hsub
  have hcalled : j < x.calls.length := by
    simp only [State.look?, Option.ite_none_right_eq_some, Option.bind_eq_some_iff] at hlook
    obtain ⟨-, bs, hbs, -⟩ := hlook
    obtain ⟨st, hst, -⟩ := view_eq_some.mp hbs
    exact (List.getElem?_eq_some_iff.mp hst).1
  have hfree : x.store.contains n = false := by
    have hlooked : Looked [(x, a)] j ⟨n, w, false⟩ := ⟨(x, a), by simp, hlook⟩
    obtain ⟨y, hy, hyn⟩ := hlooked.visited (s := x)
    rcases mem_visited.mp hy with rfl | ⟨a', hy⟩
    · exact hyn
    · obtain ⟨rfl, -⟩ := Prod.mk.inj (List.mem_singleton.mp hy)
      exact hyn
  have hmem : (x, a) ∈ past ++ after := by
    rw [hsplit]
    exact List.mem_append_left _ hx
  rcases List.mem_append.mp hmem with hp | hp
  · -- before the call was made it has asked nothing
    obtain ⟨_, _, y, -, -, hact, hrun⟩ := h.split hp
    have hlt := ((Run.single hact).append hrun).call_kept hcalled
    exact absurd hlen (Nat.not_le_of_lt hlt)
  · obtain ⟨_, _, _, -, hrun, -, -⟩ := hafter.split hp
    have hstored := (hrun.extends hrun.start_visited).contains hn
    rw [hfree] at hstored
    cases hstored

/-! ## A batch of stored names -/

def Report.nothing (names : List Name) : Report :=
  ⟨names, Name.distinct names, [], [], []⟩

/-- How a batch stands that has found the first of `names` stored and nothing in flight. -/
def BatchStage.Repeats (names : List Name) (claimant : Option Nat) : BatchStage → Prop
  | entering units _ => units.map (·.name) = names ∧ claimant = none
  | claiming units _ rest c => units.map (·.name) = names ∧ c.done ++ rest = Name.distinct names ∧
      c.followed = [] ∧ c.led = []
  | submitting b => b.requested = names ∧ b.claims.done = Name.distinct names ∧
      b.claims.led = [] ∧ b.pending = [] ∧ b.joined = []
  | _ => False

def Stage.Repeats (names : List Name) (claimant : Option Nat) : Stage → Prop
  | batch b => b.Repeats names claimant
  | finished answer => answer = .batch (.reported (Report.nothing names))
  | _ => False

/-- Since `s` call `j` has gone through stored names, has had no job, and has met nobody at work. -/
structure Repeating (s : State) (j : Nat) (names : List Name) (past : List (State × Action))
    (t : State) : Prop where
  store : t.store = s.store
  jobs : t.jobs.length = s.jobs.length
  others : ∀ i, i ≠ j → ∀ st, t.calls[i]? = some st → ∃ answer, st = .finished answer
  claimed : t.building.claimed = []
  handovers : handovers past j = []
  stage : ∃ st, t.calls[j]? = some st ∧ st.Repeats names t.claimant

theorem Batch.submission_eq_nil (h : b.pending = []) : b.submission = [] := by
  have hnames : b.submission.map (·.name) = [] := by
    refine List.eq_nil_iff_forall_not_mem.mpr ?_
    intro n hn
    rw [Batch.mem_submission, h] at hn
    cases hn.2
  exact List.map_eq_nil_iff.mp hnames

theorem BatchMove.repeats {bs : BatchStage} {next : BatchStage ⊕ BatchEnd} {m : Option Nat}
    (hm : BatchMove cfg s j a bs u next) (h : bs.Repeats names m)
    (hstored : ∀ n ∈ names, s.store.contains n = true) (hclaimed : s.building.claimed = []) :
    u.store = s.store ∧ u.jobs = s.jobs ∧ u.building.claimed = [] ∧
      (afterOwnBatch next).Repeats names u.claimant := by
  have hfree : ∀ n, s.building.flightOf? n = none := by
    intro n
    rw [FlightTable.flightOf?, hclaimed]
    rfl
  -- each claim finds its name stored, so none is led and none followed
  cases hm with
  | @enter units limits =>
    obtain ⟨rfl, -⟩ := h
    exact ⟨rfl, rfl, hclaimed, rfl, rfl, rfl, rfl⟩
  | @follow _ _ n _ _ _ hf =>
    rw [hfree n] at hf
    cases hf
  | @skip units limits n rest c _ hs =>
    obtain ⟨hnames, hdone, hfollowed, hled⟩ := h
    refine ⟨rfl, rfl, hclaimed, hnames, ?_, hfollowed, hled⟩
    rw [List.append_assoc]
    exact hdone
  | @lead units limits n rest c _ hs =>
    obtain ⟨-, hdone, -, -⟩ := h
    have hn : n ∈ names := by
      rw [← Name.mem_distinct, ← hdone]
      simp
    rw [hstored n hn] at hs
    cases hs
  | claimed ho =>
    obtain ⟨hnames, hdone, hfollowed, hled⟩ := h
    rw [List.append_nil] at hdone
    rw [hfollowed] at ho
    cases ho
    exact ⟨rfl, rfl, hclaimed, hnames, hdone, hled, hled, rfl⟩
  | @idle b _ hnil hq =>
    obtain ⟨hnames, hdone, hled, -, hjoined⟩ := h
    refine ⟨hq.store, hq.jobs, ?_, ?_⟩
    · rw [hq.building]
      exact hclaimed
    · have hguard : b.claims.guard? = none := by simp [Claims.guard?, hled]
      simp [endBatch, hguard, afterOwnBatch, Stage.Repeats, Batch.report, Report.nothing, hnames,
        hdone, hjoined]
  | @submit b hne =>
    obtain ⟨-, -, -, hpending, -⟩ := h
    exact absurd (Batch.submission_eq_nil hpending) hne
  | _ => cases h

theorem Repeating.step (h : Repeating s j names past t) (ha : a.Unasked)
    (hact : t.act cfg a = some u) (hstored : ∀ n ∈ names, s.store.contains n = true) :
    Repeating s j names (past ++ [(t, a)]) u := by
  obtain ⟨st, hi, hst⟩ := h.stage
  have hview : t.view Stage.batch? j = st.batch? := view_of_call hi
  have hhandover : t.handover? j a = none := by
    unfold State.handover?
    split
    · rw [hview]
      cases st with
      | batch b =>
        cases b with
        | submitting b =>
          obtain ⟨-, -, -, hpending, -⟩ := hst
          simp [Stage.batch?, BatchStage.handover?, Batch.submission_eq_nil hpending]
        | _ => rfl
      | compiling => cases hst
      | _ => rfl
    · rfl
  have hhanded : Engine.handovers (past ++ [(t, a)]) j = [] := by
    rw [handovers_step hhandover, h.handovers]
  -- nothing but call `j` can have changed, if the move is another's
  have hquiet : u.store = t.store → u.jobs.length = t.jobs.length → u.calls = t.calls →
      u.building = t.building → u.claimant = t.claimant →
      Repeating s j names (past ++ [(t, a)]) u := by
    intro hs hjobs hcalls hbuilding hclaimant
    refine ⟨hs.trans h.store, hjobs.trans h.jobs, ?_, ?_, hhanded, st, ?_, ?_⟩
    · rw [hcalls]
      exact h.others
    · rw [hbuilding]
      exact h.claimed
    · rw [hcalls]
      exact hi
    · rw [hclaimant]
      exact hst
  cases step_of_act hact with
  | call => exact absurd ha (by simp [Action.Unasked, Action.isInner])
  | @move i _ st₁ v st' hc hm =>
    by_cases hij : i = j
    · subst hij
      obtain rfl := Option.some.inj (hi.symm.trans hc)
      cases st with
      | batch b =>
        cases hm with
        | own hbm =>
          obtain ⟨hs, hjobs, hclaimed, hnext⟩ := hbm.repeats hst (by rw [h.store]; exact hstored)
            h.claimed
          have hv : v.calls[i]? = some (.batch b) := by rw [hbm.frame.calls]; exact hi
          refine ⟨hs.trans h.store, ?_, ?_, hclaimed, hhanded, _, ?_, hnext⟩
          · rw [setCall_jobs, hjobs, h.jobs]
          · intro i' hne st' hst'
            rw [calls_setCall hv, if_neg hne, hbm.frame.calls] at hst'
            exact h.others i' hne st' hst'
          · rw [calls_setCall hv, if_pos rfl]
      | finished => cases hm
      | _ => cases hst
    · obtain ⟨answer, rfl⟩ := h.others i hij st₁ hc
      cases hm
  | occupy => exact hquiet rfl (length_setJob _ _) rfl rfl rfl
  | launch _ _ hq =>
    refine hquiet hq.store ?_ hq.calls hq.building hq.claimant
    rw [length_setJob, hq.jobs]
  | built | founder => exact hquiet rfl (length_setJob _ _) rfl rfl rfl
  | put => exact absurd ha (by simp [Action.Unasked, Action.isInner])
  | putAll => exact absurd ha (by simp [Action.Unasked, Action.isInner])
  | quiet _ hq => exact hquiet hq.store (by rw [hq.jobs]) hq.calls hq.building hq.claimant

theorem Repeating.canStep (h : Repeating s j names past t) :
    t.calls[j]? = some (.finished (.batch (.reported (Report.nothing names)))) ∨
      t.CanStep cfg j := by
  obtain ⟨st, hi, hst⟩ := h.stage
  cases st with
  | finished answer =>
    obtain rfl := hst
    exact Or.inl hi
  | batch b =>
    refine Or.inr (.of_batch (b := b) (view_of_call hi) ?_ ?_ ?_)
    · intro hneeds
      cases b with
      | entering => exact hst.2
      | releasing => exact absurd hst id
      | _ => cases hneeds
    · rintro b' p rest deadline rfl
      exact hst
    · rintro b' submitted k deadline rfl
      exact hst
  | _ => cases hst

theorem Run.repeating {units : List SourceUnit} {limits : Limits}
    (h : Run cfg (.fresh now store ttl) past s) (hs : s.Settled)
    (hstored : ∀ x ∈ units, s.store.contains x.name = true)
    (hcall : s.act cfg (.call (.compile units limits)) = some u) (hrun : Run cfg u after t)
    (hun : ∀ p ∈ after, p.2.Unasked) :
    Repeating s s.calls.length (units.map (·.name)) after t := by
  -- every call has answered, so nobody holds the table
  have hclaimant : s.claimant = none := by
    refine Option.eq_none_iff_forall_ne_some.mpr fun c hc => ?_
    obtain ⟨f, hf⟩ := h.isLocked.holder hc
    obtain ⟨st, hi, hst⟩ := view_eq_some.mp hf
    obtain ⟨answer, rfl⟩ := hs c st hi
    cases hst
  induction hrun with
  | start =>
    obtain rfl := Option.some.inj hcall
    refine ⟨rfl, rfl, ?_, (hs.claimed h.orderly).2, rfl, _, List.getElem?_concat_length, rfl,
      hclaimant⟩
    intro i hne st hi
    refine hs i st ?_
    have hlt := (List.getElem?_eq_some_iff.mp hi).1
    rw [List.length_append, List.length_singleton] at hlt
    rwa [List.getElem?_append_left (by omega)] at hi
  | @step after v a _ hrun hact ih =>
    refine (ih fun p hp => hun p (by simp [hp])).step (hun (v, a) (by simp)) hact ?_
    intro n hn
    obtain ⟨x, hx, rfl⟩ := List.mem_map.mp hn
    exact hstored x hx

/-- If the compiler leaves out none of the names it is given, then after a batch has returned a report
each name that it was asked for is stored, and no later call hands one of them to the compiler. A
batch of such names that begins when every call has answered, and beside which nobody asks for
anything, can go on until it answers, within a bounded number of moves. It starts the compiler on
nothing, leaves the store as it is and reports each of its names as skipped. -/
theorem recompiling_free (h : Run cfg (.fresh now store ttl) past s)
    (hall : ∀ p ∈ past, p.1.Thorough p.2) (hr : Returned cfg past i (.reported r)) :
    (∀ n ∈ r.submitted, n ∈ r.requested) ∧ (∀ n ∈ r.requested, s.store.contains n = true) ∧
    (∀ after t, Run cfg s after t → ∀ j q, Called after j q → ∀ b k,
      Handed (past ++ after) j b k → ∀ n ∈ r.requested, n ∉ b.submission.map (·.name)) ∧
    (s.Settled → ∀ units limits u after t, (∀ x ∈ units, x.name ∈ r.requested) →
      s.act cfg (.call (.compile units limits)) = some u → Run cfg u after t →
      (∀ p ∈ after, p.2.Unasked) →
      invocations cfg after s.calls.length = [] ∧ t.jobs.length = s.jobs.length ∧
      t.store = s.store ∧
      (t.calls[s.calls.length]? = some (.finished (.batch (.reported
        ⟨units.map (·.name), Name.distinct (units.map (·.name)), [], [], []⟩))) ∨
          t.CanStep cfg s.calls.length) ∧
      (after.countP fun p => p.2.isInner) ≤ s.work + (11 + 3 * units.length)) := by
  have hstored : ∀ n ∈ r.requested, s.store.contains n = true :=
    fun n hn => h.stored_of_reported hall hr hn
  refine ⟨fun n hn => h.submitted_requested hr hn, hstored, ?_, ?_⟩
  · intro after t hafter j q hj b k hhanded n hn
    exact h.not_handed (hstored n hn) hafter hj hhanded
  · intro hs units limits u after t hunits hcall hrun hun
    have hrepeating :=
      h.repeating hs (fun x hx => hstored x.name (hunits x hx)) hcall hrun hun
    refine ⟨?_, hrepeating.jobs, hrepeating.store, hrepeating.canStep, ?_⟩
    · rw [invocations, hrepeating.handovers]
      rfl
    -- what work is left bounds the moves to come
    · have hbound := hrun.inner_le_work hun
      obtain rfl := Option.some.inj hcall
      have hwork : ({ s with calls := s.calls ++ [Request.stage (.compile units limits)] } :
          State).work = s.work + (11 + 3 * units.length) := by
        simp [State.work, jobWork, Request.stage, Stage.work, BatchStage.work]
        omega
      rw [hwork] at hbound
      omega

end

/-! ## A sequence of batches -/

/-- A batch of `x` whose compilation fails, and one of `y` and `x` that compiles both and `z`. -/
def retrying : List Action :=
  List.flatten
    [[.call (.compile [Sample.unit Sample.x, Sample.unit Sample.x] .unbounded)],
      List.replicate 4 (.advance 0), [.prepare 0, .built 0 (.failed ⟨"boom", [], []⟩)],
      List.replicate 3 (.advance 0),
      [.call (.compile [Sample.unit Sample.y, Sample.unit Sample.x] .unbounded)],
      List.replicate 5 (.advance 1),
      [.prepare 1, .built 1 (.output ⟨[.plain Sample.x .empty, .plain Sample.z .empty,
        .plain Sample.y .empty], []⟩)],
      List.replicate 4 (.advance 1)]

def retried : Report where
  requested := [Sample.y, Sample.x]
  skipped := []
  joined := []
  submitted := [Sample.y, Sample.x]
  produced := [Sample.x, Sample.y, Sample.z]

def repeated : List SourceUnit :=
  [Sample.unit Sample.y, Sample.unit Sample.x, Sample.unit Sample.y]

theorem recompiling_free_retrying :
    ∃ past s u after t, Run Sample.settings (.fresh 0 .empty none) past s ∧
      (∀ p ∈ past, p.1.Thorough p.2) ∧ Returned Sample.settings past 1 (.reported retried) ∧
      s.store.contains Sample.y = true ∧ s.Settled ∧
      s.act Sample.settings (.call (.compile repeated .unbounded)) = some u ∧
      Run Sample.settings u after t ∧ (∀ p ∈ after, p.2.Unasked) ∧ t.store = s.store ∧
      t.calls[2]? = some (.finished (.batch (.reported ⟨[Sample.y, Sample.x, Sample.y],
        [Sample.y, Sample.x], [], [], []⟩))) ∧
      invocations Sample.settings after 2 = [] := by
  have hperform : ((State.fresh 0 .empty none).perform Sample.settings retrying).any fun r =>
      r.2.calls = [.finished (.batch (.failed (.compile [Sample.x, Sample.x] "boom" []))),
        .finished (.batch (.reported retried))] ∧
      (∀ p ∈ r.1, p.1.Thorough p.2) ∧
      (({ r.2 with calls := r.2.calls ++ [.batch (.entering repeated .unbounded)] } :
        State).perform Sample.settings (List.replicate 5 (.advance 2))).any fun r' =>
          (∀ p ∈ r'.1, p.2.Unasked) ∧ r'.2.calls[2]? = some (.finished (.batch (.reported
            ⟨[Sample.y, Sample.x, Sample.y], [Sample.y, Sample.x], [], [], []⟩))) := by
    decide +kernel
  obtain ⟨past, s, hrun, hcalls, hall, hagain⟩ := Run.of_any hperform
  obtain ⟨after, t, hafter, hun, hanswer⟩ := Run.of_any hagain
  have hreport : s.calls[1]? = some (.finished (.batch (.reported retried))) := by
    rw [hcalls]
    rfl
  have hreturned := hrun.returned_of_answer hreport
  have hsettled : s.Settled := by
    intro i st hi
    have hst := List.mem_of_getElem? hi
    rw [hcalls] at hst
    simp only [List.mem_cons, List.not_mem_nil, or_false] at hst
    rcases hst with rfl | rfl
    · exact ⟨_, rfl⟩
    · exact ⟨_, rfl⟩
  have hlen : s.calls.length = 2 := by rw [hcalls]; rfl
  obtain ⟨-, hstored, -, hrepeat⟩ := recompiling_free hrun hall hreturned
  obtain ⟨hinvoked, -, hsame, -, -⟩ :=
    hrepeat hsettled repeated .unbounded _ after t (by decide) rfl hafter hun
  rw [hlen] at hinvoked
  exact ⟨past, s, _, after, t, hrun, hall, hreturned, hstored Sample.y (by decide), hsettled, rfl,
    hafter, hun, hsame, hanswer, hinvoked⟩

end OnDemand.Engine
