import OnDemand.Proofs.Engine.Trail

/-!
# What begins ends

A call tells the beginning and the end of its fetch and of its compiler run; the beginning of the run
is told by its job. Each beginning has one end, told later, unless the repository breaks down, which
nobody tells, or the job comes to the compiler when its call has already given up and told the end
(`bracketed_iff`).
-/

namespace OnDemand.Engine

open State

section
variable {cfg : Settings} {now : Moment} {store : Store} {ttl : Option Duration}
  {past : List (State × Action)} {s t u : State} {a : Action} {i k : Nat} {es : List Event}

/-! ## The compiler run of a call -/

/-- The compiler was started for a job of a call that had given up waiting for it. -/
def Late (cfg : Settings) (past : List (State × Action)) (i : Nat) : Prop :=
  ∃ u k l, (u, .prepare k) ∈ past ∧ k ∈ handovers past i ∧ u.launch? cfg (.prepare k) = some l ∧
    ∀ b submitted deadline, u.view Stage.batch? i ≠ some (.building b submitted k deadline)

def buildMarks (cfg : Settings) (past : List (State × Action)) (i : Nat) : List Event :=
  (marks cfg past i).filter Event.ofBuild

/-- What a call whose batch has ended, or that has had none, and its job have told of the run. -/
inductive BuildMarks (s : State) (jobs : List Nat) (late : Prop) : List Event → Prop where
  | none : jobs = [] → ¬ late → BuildMarks s jobs late []
  | heard {k e c} : jobs = [k] → s.begun k ≠ [] → ¬ late → e.startsBuild = true →
      c.endsBuild = true → BuildMarks s jobs late [e, c]
  | unheard {k c} : jobs = [k] → s.begun k = [] → ¬ late → c.endsBuild = true →
      BuildMarks s jobs late [c]
  | late {k c e} : jobs = [k] → s.begun k ≠ [] → late → c.endsBuild = true →
      e.startsBuild = true → BuildMarks s jobs late [c, e]

def Begun (s : State) (k : Nat) (es : List Event) : Prop :=
  (s.begun k = [] ∧ es = []) ∨ (s.begun k ≠ [] ∧ ∃ e, e.startsBuild = true ∧ es = [e])

def Stage.BuildHeard (s : State) (jobs : List Nat) (late : Prop) (es : List Event) (st : Stage) :
    Prop :=
  match st.batch? with
  | some (.building _ _ k _) => jobs = [k] ∧ ¬ late ∧ Begun s k es
  | some (.storing _ _ _) => ∃ k, jobs = [k] ∧ ¬ late ∧ s.begun k ≠ [] ∧ Begun s k es
  | _ => (st.ledger?.isSome = true → jobs = [] ∧ ¬ late ∧ es = []) ∧
      (st.ledger?.isSome = false → BuildMarks s jobs late es)

/-! ### What a job tells -/

theorem Run.begun_step (h : Run cfg (.fresh now store ttl) past s) (ha : s.act cfg a = some t)
    (k : Nat) : t.begun k =
      s.begun k ++ ((s.launch? cfg a).toList.filter (·.job = k)).map (·.units) := by
  rw [← (h.step ha).starts k, ← h.starts k]
  unfold Engine.starts
  rw [launches_step, List.filter_append, List.map_append]

theorem begun_of_launch {l : Launch} (hl : s.launch? cfg a = some l) : s.begun l.job = [] := by
  obtain ⟨-, j, hj, hs, -⟩ := launch?_eq_some.mp hl
  simp [State.begun, hj, hs, JobStage.begun]

theorem Run.job_of_building (h : Run cfg (.fresh now store ttl) past s) {b : Batch}
    {submitted : List Name} {deadline : Option Moment}
    (hb : s.view Stage.batch? i = some (.building b submitted k deadline)) :
    handovers past i = [k] := by
  obtain ⟨j, hired⟩ := h.hiring_of_view hb
  exact hired.only

theorem Run.job_of_storing (h : Run cfg (.fresh now store ttl) past s) {b : Batch}
    {submitted : List Name} {o : BuildOutput}
    (hb : s.view Stage.batch? i = some (.storing b submitted o)) :
    ∃ k, handovers past i = [k] ∧ s.begun k ≠ [] := by
  obtain ⟨k, j, hired, hj⟩ := h.hiring_of_view hb
  exact ⟨k, hired.only, by simp [State.begun, hired.job, hj, JobStage.begun]⟩

theorem late_of_rest (hne : a.mover? ≠ some i) :
    Late cfg (past ++ [(s, a)]) i ↔ Late cfg past i ∨ ∃ k l, a = .prepare k ∧ k ∈ handovers past i ∧
      s.launch? cfg a = some l ∧ ∀ b submitted deadline,
        s.view Stage.batch? i ≠ some (.building b submitted k deadline) := by
  unfold Late
  rw [handovers_step (handover?_of_rest hne)]
  constructor
  · rintro ⟨u, k, l, hu, hk, hl, hb⟩
    rcases List.mem_append.mp hu with hu | hu
    · exact Or.inl ⟨u, k, l, hu, hk, hl, hb⟩
    · obtain ⟨rfl, rfl⟩ := Prod.mk.inj (List.mem_singleton.mp hu)
      exact Or.inr ⟨k, l, rfl, hk, hl, hb⟩
  · rintro (⟨u, k, l, hu, hk, hl, hb⟩ | ⟨k, l, rfl, hk, hl, hb⟩)
    · exact ⟨u, k, l, List.mem_append_left _ hu, hk, hl, hb⟩
    · exact ⟨s, k, l, by simp, hk, hl, hb⟩

theorem Stage.BuildHeard.launched {st : Stage} {l : Launch} {e : Event}
    (h : Run cfg (.fresh now store ttl) past s) (hi : s.calls[i]? = some st)
    (hl : s.launch? cfg a = some l) (hjob : l.job ∈ handovers past i) (ha : s.act cfg a = some t)
    (he : e.startsBuild = true)
    (hh : st.BuildHeard s (handovers past i) (Late cfg past i) es) :
    st.BuildHeard t (handovers (past ++ [(s, a)]) i) (Late cfg (past ++ [(s, a)]) i) (es ++ [e]) := by
  obtain ⟨rfl, -⟩ := launch?_eq_some.mp hl
  have hne : (Action.prepare l.job).mover? ≠ some i := by simp [Action.mover?]
  have hbefore := begun_of_launch hl
  have hafter : t.begun l.job ≠ [] := by
    rw [h.begun_step ha, hl]
    simp
  have hview : s.view Stage.batch? i = st.batch? := view_of_call hi
  have hlate : Late cfg (past ++ [(s, .prepare l.job)]) i ↔ _ := late_of_rest hne
  rw [handovers_step (handover?_of_rest hne)]
  unfold Stage.BuildHeard at *
  -- the call waits for its job, stores the output, or does neither
  split at hh
  · rename_i b submitted k deadline hb
    obtain ⟨hjobs, hno, hbegun⟩ := hh
    rw [hjobs, List.mem_singleton] at hjob
    subst hjob
    rcases hbegun with ⟨-, rfl⟩ | ⟨hsome, -⟩
    · refine ⟨hjobs, ?_, Or.inr ⟨hafter, e, he, rfl⟩⟩
      rw [hlate]
      rintro (hold | ⟨k, l', hk, -, -, hnot⟩)
      · exact hno hold
      · obtain rfl := Action.prepare.inj hk
        exact hnot _ _ _ (hview.trans hb)
    · exact absurd hbefore hsome
  · obtain ⟨k, hjobs, -, hsome, -⟩ := hh
    rw [hjobs, List.mem_singleton] at hjob
    rw [hjob] at hbefore
    exact absurd hbefore hsome
  · rename_i hbuilding hstoring
    refine ⟨fun hled => ?_, fun hled => ?_⟩
    · rw [(hh.1 hled).1] at hjob
      cases hjob
    -- nobody waits for the job any more
    · have hnow : Late cfg (past ++ [(s, .prepare l.job)]) i := by
        rw [hlate]
        refine Or.inr ⟨l.job, l, rfl, hjob, hl, fun b submitted deadline hb => ?_⟩
        exact hbuilding _ _ _ _ (hview.symm.trans hb)
      cases hh.2 hled with
      | none hjobs =>
        rw [hjobs] at hjob
        cases hjob
      | heard hjobs hsome =>
        rw [hjobs, List.mem_singleton] at hjob
        rw [hjob] at hbefore
        exact absurd hbefore hsome
      | unheard hjobs hnone hno hc =>
        rw [hjobs, List.mem_singleton] at hjob
        rw [hjob] at hafter
        exact .late hjobs hafter hnow hc he
      | late hjobs hsome =>
        rw [hjobs, List.mem_singleton] at hjob
        rw [hjob] at hbefore
        exact absurd hbefore hsome

theorem BuildMarks.congr {jobs : List Nat} {late : Prop} (hb : ∀ k ∈ jobs, t.begun k = s.begun k)
    (h : BuildMarks s jobs late es) : BuildMarks t jobs late es := by
  cases h with
  | none hjobs hno => exact .none hjobs hno
  | heard hjobs hsome hno he hc =>
    rw [← hb _ (by simp [hjobs])] at hsome
    exact .heard hjobs hsome hno he hc
  | unheard hjobs hnone hno hc =>
    rw [← hb _ (by simp [hjobs])] at hnone
    exact .unheard hjobs hnone hno hc
  | late hjobs hsome hlate hc he =>
    rw [← hb _ (by simp [hjobs])] at hsome
    exact .late hjobs hsome hlate hc he

theorem Stage.BuildHeard.congr {jobs : List Nat} {late : Prop} {st : Stage}
    (hb : ∀ k ∈ jobs, t.begun k = s.begun k) (h : st.BuildHeard s jobs late es) :
    st.BuildHeard t jobs late es := by
  unfold Stage.BuildHeard at *
  split at h
  · obtain ⟨hjobs, hno, hbegun⟩ := h
    refine ⟨hjobs, hno, ?_⟩
    rwa [Begun, hb _ (by simp [hjobs])]
  · obtain ⟨k, hjobs, hno, hsome, hbegun⟩ := h
    refine ⟨k, hjobs, hno, ?_, ?_⟩
    · rwa [hb _ (by simp [hjobs])]
    · rwa [Begun, hb _ (by simp [hjobs])]
  · exact ⟨h.1, fun hled => (h.2 hled).congr hb⟩

/-! ### What a call tells of its run -/

theorem Run.late_of_move (h : Run cfg (.fresh now store ttl) past s) (hi : a.mover? = some i) :
    Late cfg (past ++ [(s, a)]) i = Late cfg past i := by
  unfold Late
  rw [handovers_append]
  refine propext ⟨?_, ?_⟩
  · rintro ⟨u, k, l, hu, hk, hl, hb⟩
    rcases List.mem_append.mp hu with hu | hu
    · refine ⟨u, k, l, hu, ?_, hl, hb⟩
      rcases List.mem_append.mp hk with hk | hk
      · exact hk
      · obtain ⟨p, hp, hm⟩ := List.mem_filterMap.mp hk
        obtain rfl := List.mem_singleton.mp hp
        exact absurd (h.prepared_lt hu) (by rw [handover?_eq hm]; exact Nat.lt_irrefl _)
    · obtain ⟨rfl, rfl⟩ := Prod.mk.inj (List.mem_singleton.mp hu)
      cases hi
  · rintro ⟨u, k, l, hu, hk, hl, hb⟩
    exact ⟨u, k, l, List.mem_append_left _ hu, List.mem_append_left _ hk, hl, hb⟩

variable {b b' : BatchStage} {next : BatchStage ⊕ BatchEnd}

theorem BatchMove.resting (hm : BatchMove cfg s i a b u next)
    (hview : s.view Stage.batch? i = some b) (hb : ¬ b.Working) :
    (b.ledger?.isSome = true ∧ ∃ b₀ submitted deadline,
        next.getLeft? = some (.building b₀ submitted s.jobs.length deadline)) ∨
      (s.handover? i a = none ∧ ∀ b', next.getLeft? = some b' → ¬ b'.Working) := by
  -- neither an end nor a step onward begins a compiler run
  have hend : ∀ (c : Claims) (e : BatchEnd) b', (endBatch c e).getLeft? = some b' → ¬ b'.Working := by
    intro c e b' hn
    rw [endBatch_stage hn]
    exact id
  have honward : ∀ {b : Batch} {rest : List (Name × Nat)} {next : BatchStage ⊕ BatchEnd},
      Onward s.now b rest next → ∀ b', next.getLeft? = some b' → ¬ b'.Working := by
    intro b rest next ho b' hn
    rcases ho.stage hn with ⟨-, rfl⟩ | ⟨_, rfl⟩ | rfl <;> exact id
  cases hm with
  | submit => exact Or.inl ⟨rfl, _, _, _, rfl⟩
  | idle hnil =>
    refine Or.inr ⟨?_, hend _ _⟩
    simp [State.handover?, BatchStage.handover?, hview, hnil]
  | claimed ho => exact Or.inr ⟨handover?_of_stage hview (by simp), honward ho⟩
  | join _ ho => exact Or.inr ⟨handover?_of_stage hview (by simp), honward ho⟩
  | takeOver _ ho => exact Or.inr ⟨handover?_of_stage hview (by simp), honward ho⟩
  | expireWait => exact Or.inr ⟨handover?_of_stage hview (by simp), hend _ _⟩
  | receive | fail | keep | conflict | expireBuild => exact absurd trivial hb
  | land => exact Or.inr ⟨handover?_of_stage hview (by simp), by simp⟩
  | _ =>
    refine Or.inr ⟨handover?_of_stage hview (by simp), ?_⟩
    rintro b' ⟨⟩
    exact id

theorem Word.of_resting {st st' : Stage} (hword : Word cfg i a st st' es) (hst : st.batch? = some b)
    (hb : ¬ b.Working) : es = [] := by
  cases hword with
  | silent => rfl
  | batch hst' hbw =>
    obtain rfl := Option.some.inj (hst.symm.trans hst')
    cases hbw with
    | silent => rfl
    | made => rfl
    | ended hw => exact absurd hw hb
  | _ => cases hst

/-- A batch with a compiler run has what came of it after its move, or has ended and told so. -/
theorem Word.of_working {st st' : Stage} (hword : Word cfg i a st st' es) (hst : st.batch? = some b)
    (hb : b.Working) :
    (es = [] ∧ ∃ b₀ submitted o, st'.batch? = some (.storing b₀ submitted o)) ∨
      (∃ c, es = [c] ∧ c.endsBuild = true) ∧ st'.ledger? = none ∧
        ∀ b', st'.batch? = some b' → ¬ b'.Working := by
  cases hword with
  | silent hsilent =>
    cases st with
    | compiling =>
      obtain rfl := Option.some.inj hst
      exact absurd hb hsilent
    | batch =>
      obtain rfl := Option.some.inj hst
      exact absurd hb hsilent
    | _ => cases hst
  | batch hst' hbw =>
    obtain rfl := Option.some.inj (hst.symm.trans hst')
    rw [batch?_resume, ledger?_resume]
    cases hbw with
    | silent hno => exact absurd hb hno
    | made => exact Or.inl ⟨rfl, _, _, _, rfl⟩
    | ended _ he =>
      refine Or.inr ⟨⟨_, rfl, he⟩, ?_, ?_⟩
      · cases hleft : (endBatch _ _).getLeft? with
        | none => rfl
        | some b' => rw [endBatch_stage hleft]; rfl
      · intro b' hn
        rw [endBatch_stage hn]
        exact id
  | _ => cases hst

theorem Stage.buildHeard_of_resting {st : Stage} {jobs : List Nat} {late : Prop}
    (hst : ∀ b, st.batch? = some b → ¬ b.Working) : st.BuildHeard s jobs late es ↔
      (st.ledger?.isSome = true → jobs = [] ∧ ¬ late ∧ es = []) ∧
        (st.ledger?.isSome = false → BuildMarks s jobs late es) := by
  unfold Stage.BuildHeard
  split
  · rename_i hb
    exact absurd trivial (hst _ hb)
  · rename_i hb
    exact absurd trivial (hst _ hb)
  · exact Iff.rfl

theorem Stage.BuildHeard.marks {st : Stage} {jobs : List Nat} {late : Prop}
    (h : st.BuildHeard s jobs late es) (hst : ∀ b, st.batch? = some b → ¬ b.Working) :
    BuildMarks s jobs late es := by
  rw [Stage.buildHeard_of_resting hst] at h
  by_cases hled : st.ledger?.isSome = true
  · obtain ⟨hjobs, hno, rfl⟩ := h.1 hled
    exact .none hjobs hno
  · exact h.2 (eq_false_of_ne_true hled)

theorem Stage.BuildHeard.begun {st : Stage} {jobs : List Nat} {late : Prop}
    (h : st.BuildHeard s jobs late es) (hst : st.batch? = some b) (hb : b.Working) :
    ∃ k, jobs = [k] ∧ ¬ late ∧ Begun s k es := by
  unfold Stage.BuildHeard at h
  rw [hst] at h
  cases b with
  | building _ _ k _ => exact ⟨k, h⟩
  | storing =>
    obtain ⟨k, hjobs, hno, -, hbegun⟩ := h
    exact ⟨k, hjobs, hno, hbegun⟩
  | _ => exact hb.elim

theorem Begun.ended {jobs : List Nat} {late : Prop} {c : Event} (h : Begun s k es)
    (hjobs : jobs = [k]) (hno : ¬ late) (hc : c.endsBuild = true) :
    BuildMarks s jobs late (es ++ [c]) := by
  rcases h with ⟨hnone, rfl⟩ | ⟨hsome, e, he, rfl⟩
  · exact .unheard hjobs hnone hno hc
  · exact .heard hjobs hsome hno he hc

theorem Run.begun_of_move (h : Run cfg (.fresh now store ttl) past s) (ha : s.act cfg a = some t)
    (hi : a.mover? = some i) (k : Nat) : t.begun k = s.begun k := by
  have hnone : s.launch? cfg a = none := by
    apply launch?_of_outer
    rintro k rfl
    cases hi
  rw [h.begun_step ha, hnone]
  simp

section
variable {st st' : Stage} {told : List Event} (h : Run cfg (.fresh now store ttl) past s)
  (hi : s.calls[i]? = some st) (hm : CallMove cfg s i a st u st')
  (ha : s.act cfg a = some (u.setCall i st'))
  (hh : st.BuildHeard s (handovers past i) (Late cfg past i) told)
include h hi hm ha hh

theorem Stage.BuildHeard.rested (hes : es.filter Event.ofBuild = []) (hhand : s.handover? i a = none)
    (hst : ∀ b, st.batch? = some b → ¬ b.Working) (hst' : ∀ b, st'.batch? = some b → ¬ b.Working) :
    st'.BuildHeard (u.setCall i st') (handovers (past ++ [(s, a)]) i)
      (Late cfg (past ++ [(s, a)]) i) (told ++ es.filter Event.ofBuild) := by
  rw [h.late_of_move hm.mover, hes, List.append_nil, handovers_step hhand,
    Stage.buildHeard_of_resting hst']
  refine ⟨fun hled => ?_, fun _ => (hh.marks hst).congr fun k _ => h.begun_of_move ha hm.mover k⟩
  obtain ⟨l', hl'⟩ := Option.isSome_iff_exists.mp hled
  obtain ⟨l, hl, -⟩ := hm.ledger hi hl'
  exact ((Stage.buildHeard_of_resting hst).mp hh).1 (by simp [hl])

theorem Stage.BuildHeard.hired (hst : ∀ b, st.batch? = some b → ¬ b.Working)
    (hled : st.ledger?.isSome = true) {b₀ : Batch} {submitted : List Name} {deadline : Option Moment}
    (hst' : st'.batch? = some (.building b₀ submitted s.jobs.length deadline)) :
    st'.BuildHeard (u.setCall i st') (handovers (past ++ [(s, a)]) i)
      (Late cfg (past ++ [(s, a)]) i) told := by
  obtain ⟨-, hno, rfl⟩ := ((Stage.buildHeard_of_resting hst).mp hh).1 hled
  have hview : (u.setCall i st').view Stage.batch? i = st'.batch? := view_of_call (hm.placed hi)
  rw [h.late_of_move hm.mover]
  unfold Stage.BuildHeard
  rw [hst']
  refine ⟨(h.step ha).job_of_building (hview.trans hst'), hno, Or.inl ⟨?_, rfl⟩⟩
  rw [h.begun_of_move ha hm.mover]
  simp [State.begun]

theorem Stage.BuildHeard.worked (hword : Word cfg i a st st' es) (hb : st.batch? = some b)
    (hw : b.Working) :
    st'.BuildHeard (u.setCall i st') (handovers (past ++ [(s, a)]) i)
      (Late cfg (past ++ [(s, a)]) i) (told ++ es.filter Event.ofBuild) := by
  have hview : (u.setCall i st').view Stage.batch? i = st'.batch? := view_of_call (hm.placed hi)
  obtain ⟨k, hjobs, hno, hbeg⟩ := hh.begun hb hw
  have hhand : s.handover? i a = none := by
    refine handover?_of_stage ((view_of_call hi).trans hb) ?_
    rintro b' rfl
    exact hw
  rw [h.late_of_move hm.mover]
  -- the compiler run has brought something, or the batch has ended and told so
  rcases hword.of_working hb hw with ⟨rfl, b₀, submitted, o, hs⟩ | ⟨⟨c, rfl, hc⟩, hled, hrest⟩
  · obtain ⟨k', hk', hsome⟩ := (h.step ha).job_of_storing (hview.trans hs)
    rw [handovers_step hhand] at hk' ⊢
    obtain rfl := List.cons.inj (hjobs.symm.trans hk') |>.1
    unfold Stage.BuildHeard
    rw [hs]
    refine ⟨k, hjobs, hno, hsome, ?_⟩
    rw [List.filter_nil, List.append_nil, Begun, h.begun_of_move ha hm.mover]
    exact hbeg
  · rw [handovers_step hhand, Stage.buildHeard_of_resting hrest,
      List.filter_cons_of_pos (Event.ofBuild_of_endsBuild hc), List.filter_nil]
    refine ⟨by simp [hled], fun _ => ?_⟩
    exact (hbeg.ended hjobs hno hc).congr fun k _ => h.begun_of_move ha hm.mover k

theorem Stage.BuildHeard.moved (hword : Word cfg i a st st' es) :
    st'.BuildHeard (u.setCall i st') (handovers (past ++ [(s, a)]) i)
      (Late cfg (past ++ [(s, a)]) i) (told ++ es.filter Event.ofBuild) := by
  have hview : s.view Stage.batch? i = st.batch? := view_of_call hi
  rcases hm.batch_or_apart with ⟨b, next, hb, hbm, hn⟩ | hap
  -- the compiler runs, is started by this move, or has nothing to do with it
  · by_cases hw : b.Working
    · exact worked h hi hm ha hh hword hb hw
    · have hst : ∀ b', st.batch? = some b' → ¬ b'.Working := by
        intro b' hb'
        obtain rfl := Option.some.inj (hb.symm.trans hb')
        exact hw
      obtain rfl := hword.of_resting hb hw
      rcases hbm.resting (hview.trans hb) hw with ⟨hled, b₀, submitted, deadline, hnext⟩ | ⟨hhand, hrest⟩
      · rw [← Stage.ledger?_of_batch hb] at hled
        rw [List.filter_nil, List.append_nil]
        exact hired h hi hm ha hh hst hled (hn.trans hnext)
      · rw [← hn] at hrest
        exact rested h hi hm ha hh rfl hhand hst hrest
  · have hes : es.filter Event.ofBuild = [] := by
      cases hword with
      | fetched _ he =>
        have := Event.ofBuild_of_ofFetch (Event.ofFetch_of_endsFetch he)
        simp [this]
      | batch hb =>
        rw [hap.before] at hb
        cases hb
      | _ => rfl
    refine rested h hi hm ha hh hes (handover?_of_none (hview.trans hap.before)) (by simp [hap.before]) ?_
    intro b hb
    rcases hap.after with hnone | ⟨units, limits, hentering⟩
    · rw [hnone] at hb
      cases hb
    · obtain rfl := Option.some.inj (hentering.symm.trans hb)
      exact id

end

theorem buildMarks_of_rest (ha : s.act cfg a = some t) (hne : a.mover? ≠ some i)
    (hno : ∀ l, s.launch? cfg a = some l → l.job ∉ handovers past i) :
    buildMarks cfg (past ++ [(s, a)]) i = buildMarks cfg past i := by
  unfold buildMarks
  by_cases hprep : ∀ k ∈ handovers past i, a ≠ .prepare k
  · rw [marks_of_rest hne hprep]
  · simp only [not_forall, not_not] at hprep
    obtain ⟨k, hk, rfl⟩ := hprep
    rcases tells_prepare ha with ⟨l, e, hl, -⟩ | ⟨-, htells⟩
    · obtain ⟨hjob, -⟩ := launch?_eq_some.mp hl
      rw [Action.prepare.inj hjob] at hk
      exact absurd hk (hno l hl)
    · rw [marks_of_prepare hk ha htells, List.append_nil]

theorem late_of_other (hne : a.mover? ≠ some i)
    (hno : ∀ l, s.launch? cfg a = some l → l.job ∉ handovers past i) :
    Late cfg (past ++ [(s, a)]) i = Late cfg past i := by
  refine propext ((late_of_rest hne).trans (or_iff_left ?_))
  rintro ⟨k, l, rfl, hk, hl, -⟩
  obtain ⟨hjob, -⟩ := launch?_eq_some.mp hl
  rw [Action.prepare.inj hjob] at hk
  exact hno l hl hk

theorem Stage.BuildHeard.rest {st : Stage} (h : Run cfg (.fresh now store ttl) past s)
    (ha : s.act cfg a = some t) (hne : a.mover? ≠ some i) (hi : s.calls[i]? = some st)
    (hh : st.BuildHeard s (handovers past i) (Late cfg past i) (buildMarks cfg past i)) :
    st.BuildHeard t (handovers (past ++ [(s, a)]) i) (Late cfg (past ++ [(s, a)]) i)
      (buildMarks cfg (past ++ [(s, a)]) i) := by
  -- a job of this call is started, or nothing happens that is told of it
  by_cases hown : ∃ l, s.launch? cfg a = some l ∧ l.job ∈ handovers past i
  · obtain ⟨l, hl, hjob⟩ := hown
    obtain ⟨rfl, -⟩ := launch?_eq_some.mp hl
    rcases tells_prepare ha with ⟨l', e, -, he, htells⟩ | ⟨hnone, -⟩
    · rw [buildMarks, marks_of_prepare hjob ha htells, List.filter_append,
        List.filter_cons_of_pos (Event.ofBuild_of_startsBuild he), List.filter_nil]
      exact hh.launched h hi hl hjob ha he
    · rw [hl] at hnone
      cases hnone
  · have hno : ∀ l, s.launch? cfg a = some l → l.job ∉ handovers past i :=
      fun l hl hjob => hown ⟨l, hl, hjob⟩
    rw [buildMarks_of_rest ha hne hno, late_of_other hne hno, handovers_step (handover?_of_rest hne)]
    refine hh.congr fun k hk => ?_
    rw [h.begun_step ha]
    cases hl : s.launch? cfg a with
    | none => simp
    | some l =>
      have hne : l.job ≠ k := by
        rintro rfl
        exact hno l hl hk
      simp [hne]

theorem Run.buildHeard (h : Run cfg (.fresh now store ttl) past s) (i : Nat) :
    (s.calls[i]? = none → ¬ Late cfg past i ∧ buildMarks cfg past i = []) ∧
      ∀ st, s.calls[i]? = some st → st.BuildHeard s (handovers past i) (Late cfg past i)
        (buildMarks cfg past i) := by
  -- the life of a call: before it, moves of others, its beginning, its own moves
  refine h.life (P := fun past s o => (o = none → ¬ Late cfg past i ∧ buildMarks cfg past i = []) ∧
    ∀ st, o = some st → st.BuildHeard s (handovers past i) (Late cfg past i)
      (buildMarks cfg past i)) i ?_ ?_ ?_ ?_
  · exact ⟨fun _ => ⟨by simp [Late], rfl⟩, by simp⟩
  · intro past s a t h ha hne _ ih
    refine ⟨fun hi => ?_, fun st hi => (ih.2 st hi).rest h ha hne hi⟩
    have hno : ∀ l, s.launch? cfg a = some l → l.job ∉ handovers past i := by
      intro l _
      rw [(h.hiring i).1 hi]
      exact List.not_mem_nil
    rw [buildMarks_of_rest ha hne hno, late_of_other hne hno]
    exact ih.1 hi
  · intro past s r t h ha hlen ih
    have hne : (Action.call r).mover? ≠ some i := by simp [Action.mover?]
    have hno : ∀ l, s.launch? cfg (.call r) = some l → l.job ∉ handovers past i := by
      intro l hl
      cases hl
    obtain ⟨hlate, hmarks⟩ := ih.1 rfl
    refine ⟨by simp, ?_⟩
    rintro st ⟨⟩
    rw [buildMarks_of_rest ha hne hno, late_of_other hne hno, handovers_step (handover?_of_rest hne)]
    have hjobs := (h.hiring i).1 (by rw [← hlen]; simp)
    rw [Stage.buildHeard_of_resting (by cases r <;> simp [Request.stage, Stage.batch?, BatchStage.Working])]
    refine ⟨fun _ => ⟨hjobs, hlate, hmarks⟩, fun _ => ?_⟩
    rw [hmarks]
    exact .none hjobs hlate
  · intro past s a u st st' h hi hm ha ih
    refine ⟨by simp, ?_⟩
    rintro st₁ ⟨⟩
    obtain ⟨es, hword, htells⟩ := word_of_move ha hi hm.mover (hm.placed hi)
    rw [buildMarks, h.marks_of_move hm.mover ha htells, List.filter_append]
    exact (ih.2 st rfl).moved h hi hm ha hword

/-! ## What begins ends -/

theorem FetchMarks.closed_iff {crashed : Prop} (h : FetchMarks crashed es) :
    (∀ e, e.opens = true → e.ofFetch = true → ClosedIn e es) ↔ ¬ crashed := by
  cases h with
  | none hno => exact iff_of_true (fun e _ _ => closedIn_nil e) hno
  | @closed n r c hno hc =>
    refine iff_of_true (fun e he _ => closedIn_pair.mpr ⟨?_, ?_⟩) hno
    · rintro rfl
      exact hc
    · rintro rfl
      exact Event.not_opens_of_endsFetch hc he
  | lost hc => exact iff_of_false (fun h => closedIn_singleton.mp (h _ rfl rfl) rfl) (not_not_intro hc)

theorem BuildMarks.closed_iff {jobs : List Nat} {late : Prop} (h : BuildMarks s jobs late es) :
    (∀ e, e.startsBuild = true → ClosedIn e es) ↔ ¬ late := by
  cases h with
  | none _ hno => exact iff_of_true (fun e _ => closedIn_nil e) hno
  | @heard k e c _ _ hno he hc =>
    refine iff_of_true (fun e' he' => closedIn_pair.mpr ⟨?_, ?_⟩) hno
    · rintro rfl
      rwa [Event.closedBy_of_startsBuild he]
    · rintro rfl
      exact Event.not_startsBuild_of_endsBuild hc he'
  | unheard _ _ hno hc =>
    refine iff_of_true (fun e he => closedIn_singleton.mpr ?_) hno
    rintro rfl
    exact Event.not_startsBuild_of_endsBuild hc he
  | late _ _ hlate _ he =>
    exact iff_of_false (fun h => (closedIn_pair.mp (h _ he)).2 rfl) (not_not_intro hlate)

theorem BuildMarks.countP {jobs : List Nat} {late : Prop} {e : Event} (h : BuildMarks s jobs late es)
    (hmem : e ∈ es) (he : e.startsBuild = true) : es.countP e.closedBy = 1 := by
  rw [Event.closedBy_of_startsBuild he]
  have hstart : ∀ e : Event, e.startsBuild = true → e.endsBuild = false := by
    intro e he
    by_contra hc
    exact Event.not_startsBuild_of_endsBuild (eq_true_of_ne_false hc) he
  cases h with
  | none => cases hmem
  | heard _ _ _ he' hc => simp [hstart _ he', hc]
  | unheard _ _ _ hc =>
    obtain rfl := List.mem_singleton.mp hmem
    exact absurd he (Event.not_startsBuild_of_endsBuild hc)
  | late _ _ _ hc he' => simp [hstart _ he', hc]

variable {answer : Answer}

theorem ofFetch_of_closedBy {e c : Event} (ho : e.opens = true) (he : e.ofFetch = true)
    (hc : e.closedBy c = true) : c.ofFetch = true := by
  cases e with
  | fetchStarted => exact Event.ofFetch_of_endsFetch hc
  | compileStarted => cases he
  | _ => cases ho

theorem ofBuild_of_closedBy {e c : Event} (he : e.startsBuild = true) (hc : e.closedBy c = true) :
    c.ofBuild = true := by
  rw [Event.closedBy_of_startsBuild he] at hc
  exact Event.ofBuild_of_endsBuild hc

theorem closedIn_fetchMarks {e : Event} (ho : e.opens = true) (he : e.ofFetch = true) :
    ClosedIn e (fetchMarks cfg past i) ↔ ClosedIn e (trail cfg past i) := by
  have hc : ∀ c, e.closedBy c = true → c.ofFetch = true := fun c => ofFetch_of_closedBy ho he
  rw [fetchMarks, closedIn_filter he hc, marks,
    closedIn_filter (by simp [Event.marked, he]) fun c h => by simp [Event.marked, hc c h]]

theorem closedIn_buildMarks {e : Event} (he : e.startsBuild = true) :
    ClosedIn e (buildMarks cfg past i) ↔ ClosedIn e (trail cfg past i) := by
  have hc : ∀ c, e.closedBy c = true → c.ofBuild = true := fun c => ofBuild_of_closedBy he
  have hb := Event.ofBuild_of_startsBuild he
  rw [buildMarks, closedIn_filter hb hc, marks,
    closedIn_filter (by simp [Event.marked, hb]) fun c h => by simp [Event.marked, hc c h]]

theorem countP_buildMarks {e : Event} (he : e.startsBuild = true) :
    (buildMarks cfg past i).countP e.closedBy = (trail cfg past i).countP e.closedBy := by
  have hc : ∀ c, e.closedBy c = true → c.ofBuild = true := fun c => ofBuild_of_closedBy he
  rw [buildMarks, countP_closedBy_filter hc, marks,
    countP_closedBy_filter fun c h => by simp [Event.marked, hc c h]]

theorem bracketed_iff_parts : Bracketed (trail cfg past i) ↔
    (∀ e, e.opens = true → e.ofFetch = true → ClosedIn e (fetchMarks cfg past i)) ∧
      ∀ e, e.startsBuild = true → ClosedIn e (buildMarks cfg past i) := by
  unfold Bracketed
  constructor
  · intro h
    refine ⟨fun e ho he => (closedIn_fetchMarks ho he).mpr (h e ho), fun e he => ?_⟩
    exact (closedIn_buildMarks he).mpr (h e (Event.opens_of_startsBuild he))
  · rintro ⟨hfetch, hbuild⟩ e ho
    cases e with
    | fetchStarted => exact (closedIn_fetchMarks rfl rfl).mp (hfetch _ rfl rfl)
    | compileStarted => exact (closedIn_buildMarks rfl).mp (hbuild _ rfl)
    | _ => cases ho

/-- Whatever the repository and the compiler do, all that a call that has answered began has one end,
which is told later, exactly when the repository did not break down under its fetch and the compiler
was not started for a job that the call had given up. -/
theorem bracketed_iff (h : Run cfg (.fresh now store ttl) past s)
    (hi : s.calls[i]? = some (.finished answer)) :
    (Bracketed (trail cfg past i) ↔ ¬ Crashed past i ∧ ¬ Late cfg past i) ∧
      ∀ e ∈ trail cfg past i, e.startsBuild = true → (trail cfg past i).countP e.closedBy = 1 := by
  have hfetch : FetchMarks (Crashed past i) (fetchMarks cfg past i) := (h.fetchHeard i).2 _ hi
  have hbuild : BuildMarks s (handovers past i) (Late cfg past i) (buildMarks cfg past i) :=
    ((h.buildHeard i).2 _ hi).marks (by simp [Stage.batch?])
  refine ⟨?_, fun e hmem he => ?_⟩
  · rw [bracketed_iff_parts, hfetch.closed_iff, hbuild.closed_iff]
  · have hb := Event.ofBuild_of_startsBuild he
    have hmarked : e ∈ marks cfg past i := List.mem_filter.mpr ⟨hmem, by simp [Event.marked, hb]⟩
    rw [← countP_buildMarks he]
    exact hbuild.countP (List.mem_filter.mpr ⟨hmarked, hb⟩) he

end

def crashingBuild : List Action :=
  .call (.compile [Sample.unit Sample.x] .unbounded) :: List.replicate 4 (.advance 0) ++
    [.prepare 0, .built 0 .crashed] ++ List.replicate 3 (.advance 0)

theorem crashed_build_closed :
    ∃ past s, Run Sample.settings (.fresh 0 .empty none) past s ∧
      s.calls = [.finished (.batch (.failed (.abandoned .compile)))] ∧
      trail Sample.settings past 0 = [.compileStarted "compiler" [Sample.x] 0 0,
        .compileFailed [Sample.x] (CallError.abandoned .compile).message 0] ∧
      ¬ Crashed past 0 ∧ ¬ Late Sample.settings past 0 := by
  have hperform : ((State.fresh 0 .empty none).perform Sample.settings crashingBuild).any fun r =>
      r.2.calls = [.finished (.batch (.failed (.abandoned .compile)))] ∧
      trail Sample.settings r.1 0 = [.compileStarted "compiler" [Sample.x] 0 0,
        .compileFailed [Sample.x] (CallError.abandoned .compile).message 0] := by
    decide +kernel
  obtain ⟨past, s, hrun, hcalls, htrail⟩ := Run.of_any hperform
  have hfirst : s.calls[0]? = some (.finished (.batch (.failed (.abandoned .compile)))) := by
    rw [hcalls]
    rfl
  refine ⟨past, s, hrun, hcalls, htrail, (bracketed_iff hrun hfirst).1.mp ?_⟩
  rw [htrail]
  intro e he
  refine closedIn_pair.mpr ⟨?_, ?_⟩
  · rintro rfl
    rfl
  · rintro rfl
    cases he

/-- Nobody tells the end of a fetch under which the repository breaks down. -/
theorem crashed_fetch_unclosed :
    ¬ ∀ cfg past s answer, Run cfg (.fresh 0 .empty none) past s → s.calls = [.finished answer] →
      Bracketed (trail cfg past 0) := by
  intro h
  have hperform : ((State.fresh 0 .empty none).perform Sample.settings
      (.call (.resolve Sample.x .unbounded) :: List.replicate 5 (.advance 0) ++
        [.fetched 0 .crashed] ++ List.replicate 3 (.advance 0))).any fun r =>
      r.2.calls = [resolved (.failed (.abandoned .fetch))] ∧
      trail Sample.settings r.1 0 = [.fetchStarted Sample.x "repository"] := by
    decide +kernel
  obtain ⟨past, s, hrun, hcalls, htrail⟩ := Run.of_any hperform
  have hbracketed := h _ _ _ _ hrun hcalls
  rw [htrail] at hbracketed
  exact closedIn_singleton.mp (hbracketed (.fetchStarted Sample.x "repository") rfl) rfl

end OnDemand.Engine
