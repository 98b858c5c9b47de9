import Mathlib.Algebra.GroupWithZero.Nat
import OnDemand.Proofs.Engine.Ledger

/-!
# The work that is left

Each move of a call or a job brings its call nearer to an answer. The work left counts the moves
that the calls and jobs can still make at most, and every such move makes it smaller
(`act_work_lt`), so the engine cannot run on for ever without being asked for more.
-/

namespace OnDemand.Engine

open State

/-! ## Sums over lists -/

theorem sum_map_set {α : Type} (f : α → Nat) {x : α} (y : α) : ∀ {l : List α} {i : Nat},
    l[i]? = some x → ((l.set i y).map f).sum + f x = (l.map f).sum + f y
  | [], _, h => by cases h
  | z :: l, 0, h => by
    obtain rfl := Option.some.inj h
    simp only [List.set_cons_zero, List.map_cons, List.sum_cons]
    omega
  | z :: l, i + 1, h => by
    have ih := sum_map_set f y (l := l) (i := i) h
    simp only [List.set_cons_succ, List.map_cons, List.sum_cons]
    omega

theorem length_distinct_le : ∀ l : List Name, (Name.distinct l).length ≤ l.length
  | [] => Nat.le_refl _
  | n :: l => by
    have hfilter := List.length_filter_le (· ≠ n) (Name.distinct l)
    have ih := length_distinct_le l
    rw [Name.distinct, List.length_cons, List.length_cons]
    omega

/-! ## Work -/

def JobStage.work : JobStage → Nat
  | queued => 3
  | preparing => 2
  | running _ => 1
  | returned _ => 0

def BatchStage.work : BatchStage → Nat
  | entering units _ => 11 + 3 * units.length
  | claiming _ _ rest c => 10 + 3 * rest.length + 2 * c.followed.length
  | following _ rest _ => 9 + 2 * rest.length
  | checking _ _ rest => 10 + 2 * rest.length
  | submitting _ => 8
  | building _ _ _ _ => 4
  | storing _ _ _ => 3
  | releasing _ _ => 2
  | landing _ _ => 1

def Stage.work : Stage → Nat
  | recalling _ => 1
  | looking _ _ => 25
  | missed _ _ => 24
  | remembering _ _ => 23
  | claiming _ _ => 22
  | rereading _ => 1
  | following _ _ _ _ => 1
  | departing _ _ _ => 21
  | fetching _ _ _ _ => 20
  | compiling _ _ b => 5 + b.work
  | rechecking _ _ => 4
  | recording _ _ _ => 3
  | releasing _ _ => 2
  | landing _ _ => 1
  | batch b => b.work
  | finished _ => 0

namespace State

def jobWork (s : State) : Nat :=
  (s.jobs.map (·.stage.work)).sum

def work (s : State) : Nat :=
  (s.calls.map Stage.work).sum + s.jobWork

end State

def workNext (next : BatchStage ⊕ BatchEnd) : Nat :=
  match next with
  | .inl b => b.work
  | .inr _ => 0

theorem workNext_endBatch (c : Claims) (ending : BatchEnd) : workNext (endBatch c ending) ≤ 2 := by
  unfold endBatch
  split <;> simp [workNext, BatchStage.work]

theorem Onward.work {now : Moment} {b : Batch} {rest : List (Name × Nat)}
    {next : BatchStage ⊕ BatchEnd} (h : Onward now b rest next) :
    workNext next ≤ 9 + 2 * rest.length := by
  cases h with
  | submit => simp [workNext, BatchStage.work]
  | wait => simp [workNext, BatchStage.work]
  | overflow =>
    have := workNext_endBatch b.claims (.overflowed .deadline)
    omega

section
variable {cfg : Settings} {s t : State} {a : Action} {i : Nat}

theorem jobWork_congr (h : t.jobs = s.jobs) : t.jobWork = s.jobWork := by
  rw [jobWork, jobWork, h]

theorem work_endBatch {b : BatchStage} (c : Claims) (ending : BatchEnd) (hj : t.jobs = s.jobs)
    (hb : 2 < b.work) : t.jobWork + workNext (endBatch c ending) < s.jobWork + b.work := by
  have := workNext_endBatch c ending
  rw [jobWork_congr hj]
  omega

theorem BatchMove.work {b : BatchStage} {next : BatchStage ⊕ BatchEnd}
    (h : BatchMove cfg s i a b t next) : t.jobWork + workNext next < s.jobWork + b.work := by
  -- a stage is worth more than the next, a name more than what may come of it
  cases h with
  | @enter units limits =>
    have := length_distinct_le (units.map (·.name))
    simp only [List.length_map] at this
    simp only [workNext, BatchStage.work, Claims.start, List.length_nil, jobWork]
    omega
  | follow =>
    simp only [workNext, BatchStage.work, List.length_append, List.length_cons, List.length_nil]
    omega
  | skip =>
    simp only [workNext, BatchStage.work, List.length_cons]
    omega
  | lead =>
    simp only [workNext, BatchStage.work, List.length_cons, jobWork]
    omega
  | claimed ho =>
    have := ho.work
    simp only [BatchStage.work, List.length_nil, jobWork]
    omega
  | arrive =>
    simp only [workNext, BatchStage.work, List.length_cons]
    omega
  | arriveAll =>
    simp only [workNext, BatchStage.work, List.length_nil]
    omega
  | join _ ho =>
    have := ho.work
    simp only [BatchStage.work]
    omega
  | takeOver _ ho =>
    have := ho.work
    simp only [BatchStage.work]
    omega
  | idle _ hq => exact work_endBatch _ _ hq.jobs (by simp [BatchStage.work])
  | submit =>
    simp only [workNext, BatchStage.work, jobWork, List.map_append, List.sum_append, List.map_cons,
      List.map_nil, List.sum_cons, List.sum_nil]
    split <;> simp only [JobStage.work] <;> omega
  | receive =>
    simp only [workNext, BatchStage.work]
    omega
  | fail _ _ _ hq => exact work_endBatch _ _ hq.jobs (by simp [BatchStage.work])
  | keep => exact work_endBatch _ _ rfl (by simp [BatchStage.work])
  | conflict _ hq => exact work_endBatch _ _ hq.jobs (by simp [BatchStage.work])
  | release =>
    simp only [workNext, BatchStage.work, jobWork]
    omega
  | land =>
    simp only [workNext, BatchStage.work, jobWork]
    omega
  | expireWait _ hq =>
    refine work_endBatch _ _ hq.jobs ?_
    simp only [BatchStage.work]
    omega
  | expireBuild hq => exact work_endBatch _ _ hq.jobs (by simp [BatchStage.work])

theorem work_afterBatch (n : Name) (g : Guard) (next : BatchStage ⊕ BatchEnd) :
    (afterBatch n g next).work ≤ 5 + workNext next := by
  rcases next with b | e
  · exact Nat.le_refl _
  · cases e <;> simp [afterBatch, Stage.work, workNext]

theorem work_afterOwnBatch (next : BatchStage ⊕ BatchEnd) :
    (afterOwnBatch next).work = workNext next := by
  rcases next with b | e <;> rfl

theorem CallMove.work {st st' : Stage} (h : CallMove cfg s i a st t st') :
    t.jobWork + st'.work < s.jobWork + st.work := by
  have hquiet : ∀ {u : State} {st st' : Stage}, s.Quiet u → st'.work < st.work →
      u.jobWork + st'.work < s.jobWork + st.work := by
    intro u st st' hq hlt
    rw [jobWork_congr hq.jobs]
    omega
  cases h with
  | @compile n g _ _ _ next hb =>
    have := hb.work
    have := work_afterBatch n g next
    show t.jobWork + (afterBatch n g next).work < s.jobWork + (5 + _)
    omega
  | own hb =>
    rw [work_afterOwnBatch]
    exact hb.work
  | peek => exact hquiet (quiet_read _ _ _) (by simp [Stage.work])
  | hit => exact hquiet (quiet_tellLookup _ _ _) (by simp [Stage.work, resolved])
  | isRemote => exact hquiet (quiet_tellLookup _ _ _) (by simp [Stage.work])
  | isLocal => exact hquiet (quiet_tellLookup _ _ _) (by simp [Stage.work, resolved])
  | reread => exact hquiet (quiet_read _ _ _) (by simp [Stage.work, resolved])
  | recheck => exact hquiet (quiet_read _ _ _) (by simp [Stage.work])
  | record => exact hquiet (quiet_record _ _ _) (by simp [Stage.work])
  | expireWait _ hq => exact hquiet hq (by simp [Stage.work, resolved])
  | expireFetch hq => exact hquiet hq (by simp [Stage.work])
  | unfetched hq => exact hquiet hq (by simp [Stage.work])
  | _ =>
    simp only [Stage.work, BatchStage.work, resolved, jobWork, tell_jobs, List.length_cons,
      List.length_nil]
    omega

theorem work_setJob {k : Nat} {j : Job} {stage : JobStage} (hj : s.jobs[k]? = some j)
    (hlt : stage.work < j.stage.work) : (s.setJob k stage).work < s.work := by
  have hsum : (((s.jobs.set k { j with stage := stage }).map (·.stage.work)).sum + j.stage.work =
      (s.jobs.map (·.stage.work)).sum + stage.work) :=
    sum_map_set (fun j : Job => j.stage.work) { j with stage := stage } hj
  simp only [State.work, jobWork, jobs_setJob hj, setJob_calls]
  omega

/-- Every inner move leaves less work. -/
theorem act_work_lt (h : s.act cfg a = some t) (ha : a.isInner = true) : t.work < s.work := by
  -- one call or one job moves, and the rest of the sum stays
  cases step_of_act h with
  | call => cases ha
  | @move id _ st u st' hc hm =>
    have hsum := sum_map_set Stage.work st' hc
    have hwork := hm.work
    simp only [State.work, setCall, jobWork, hm.quietCalls] at hsum hwork ⊢
    omega
  | occupy hj hs =>
    refine work_setJob hj ?_
    rw [hs]
    simp [JobStage.work]
  | @launch k j processors u hj hs hq =>
    have hlt : (s.setJob k (.running processors)).work < s.work := by
      refine work_setJob hj ?_
      rw [hs]
      simp [JobStage.work]
    have hsame : (u.setJob k (.running processors)).work = (s.setJob k (.running processors)).work := by
      simp only [State.work, jobWork, setJob, hq.jobs, hq.calls]
    omega
  | built reply hj hs =>
    refine work_setJob hj ?_
    rw [hs]
    simp [JobStage.work]
  | founder hj _ hs =>
    refine work_setJob hj ?_
    rcases hs with hs | hs <;> simp [hs, JobStage.work]
  | put => cases ha
  | putAll => cases ha
  | quiet hq =>
    rw [hq] at ha
    cases ha

/-- A move with which nobody asks for anything: one of the engine, or time passes. -/
def Action.Unasked (a : Action) : Prop :=
  a.isInner = true ∨ ∃ nanos, a = .elapse nanos

instance (a : Action) : Decidable a.Unasked :=
  match a with
  | .elapse nanos => isTrue (Or.inr ⟨nanos, rfl⟩)
  | .call _ | .put _ | .putAll _ | .forget _ | .clearFailures =>
    isFalse (by simp [Action.Unasked, Action.isInner])
  | .advance _ | .expire _ | .fetched _ _ | .prepare _ | .built _ _ | .founder _ =>
    isTrue (Or.inl rfl)

/-- In a run in which nobody asks for anything, the inner moves are no more than the work it begins
with. -/
theorem Run.inner_le_work {past : List (State × Action)} (h : Run cfg s past t)
    (hun : ∀ p ∈ past, p.2.Unasked) : (past.countP fun p => p.2.isInner) + t.work ≤ s.work := by
  induction h with
  | start => simp
  | @step past u a v hr ha ih =>
    have hpast := ih fun p hp => hun p (by simp [hp])
    rw [List.countP_append]
    rcases hun (u, a) (by simp) with hin | ⟨nanos, rfl⟩
    · have hlt := act_work_lt ha hin
      have hone : [(u, a)].countP (fun p => p.2.isInner) = 1 := by simp [hin]
      omega
    · obtain rfl := Option.some.inj ha
      exact hpast

theorem Run.length_le_work {past : List (State × Action)} (h : Run cfg s past t)
    (hin : ∀ p ∈ past, p.2.isInner = true) : past.length + t.work ≤ s.work := by
  have hcount : (past.countP fun p => p.2.isInner) = past.length := List.countP_eq_length.mpr hin
  have := h.inner_le_work fun p hp => Or.inl (hin p hp)
  omega

end

end OnDemand.Engine
