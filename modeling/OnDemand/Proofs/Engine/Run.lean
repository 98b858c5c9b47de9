import Mathlib.Logic.Function.Basic
import OnDemand.Proofs.Engine.Move

/-!
# Runs of the engine

A run is told with its past: each state it went through and the move it made there. A property
that every move keeps holds after every run (`Run.invariant`), and each state of the past is where
one run ends and another begins (`Run.split`).
-/

namespace OnDemand.Engine

/-- `Run cfg s₀ past s`: from `s₀` the moves of `past`, made in the states given with them, lead
to `s`. -/
inductive Run (cfg : Settings) (s₀ : State) : List (State × Action) → State → Prop where
  | start : Run cfg s₀ [] s₀
  | step {past s a t} : Run cfg s₀ past s → s.act cfg a = some t → Run cfg s₀ (past ++ [(s, a)]) t

namespace State

def perform (cfg : Settings) (s : State) : List Action → Option (List (State × Action) × State)
  | [] => some ([], s)
  | a :: as => (s.act cfg a).bind fun t => (perform cfg t as).map fun r => ((s, a) :: r.1, r.2)

end State

def visited (past : List (State × Action)) (s : State) : List State :=
  past.map (·.1) ++ [s]

theorem mem_visited {past : List (State × Action)} {s u : State} :
    u ∈ visited past s ↔ u = s ∨ ∃ a, (u, a) ∈ past := by
  simp [visited, or_comm]

theorem mem_visited_step {past : List (State × Action)} {s t u : State} {a : Action} :
    u ∈ visited (past ++ [(s, a)]) t ↔ u ∈ visited past s ∨ u = t := by
  simp [visited, or_assoc]

theorem visited_before {before after : List (State × Action)} {p : State × Action} {s u : State}
    (h : u ∈ visited before p.1) : u ∈ visited (before ++ p :: after) s := by
  rcases mem_visited.mp h with rfl | ⟨a, hu⟩
  · exact mem_visited.mpr (Or.inr ⟨p.2, by simp⟩)
  · exact mem_visited.mpr (Or.inr ⟨a, by simp [hu]⟩)

namespace Run

variable {cfg : Settings} {s₀ s t : State} {past after : List (State × Action)}

theorem append (h : Run cfg s₀ past s) (h' : Run cfg s after t) : Run cfg s₀ (past ++ after) t := by
  induction h' with
  | start => simpa using h
  | step _ ha ih =>
    rw [← List.append_assoc]
    exact .step ih ha

theorem single {a : Action} (ha : s.act cfg a = some t) : Run cfg s [(s, a)] t :=
  .step .start ha

theorem of_perform : ∀ {as : List Action} {s : State} {past : List (State × Action)} {t : State},
    s.perform cfg as = some (past, t) → Run cfg s past t
  | [], s, past, t, h => by
    obtain ⟨rfl, rfl⟩ := Prod.mk.inj (Option.some.inj h)
    exact .start
  | a :: as, s, past, t, h => by
    simp only [State.perform, Option.bind_eq_some_iff, Option.map_eq_some_iff] at h
    obtain ⟨u, ha, ⟨p, v⟩, hr, he⟩ := h
    obtain ⟨rfl, rfl⟩ := Prod.mk.inj he
    exact (single ha).append (of_perform hr)

theorem of_any {as : List Action} {P : List (State × Action) × State → Prop} [DecidablePred P]
    (h : (s.perform cfg as).any fun r => P r) : ∃ past t, Run cfg s past t ∧ P (past, t) := by
  obtain ⟨⟨past, t⟩, hr, hP⟩ := (Option.any_eq_true _ _).mp h
  exact ⟨past, t, of_perform hr, of_decide_eq_true hP⟩

theorem invariant {P : State → Prop} (hP : ∀ {s a t}, P s → Step cfg s a t → P t)
    (h : Run cfg s₀ past s) (h₀ : P s₀) : P s := by
  induction h with
  | start => exact h₀
  | step _ ha ih => exact hP ih (step_of_act ha)

theorem split {p : State × Action} (h : Run cfg s₀ past s) (hp : p ∈ past) :
    ∃ before after u, past = before ++ p :: after ∧ Run cfg s₀ before p.1 ∧
      p.1.act cfg p.2 = some u ∧ Run cfg u after s := by
  induction h with
  | start => cases hp
  | @step past s a t hr ha ih =>
    rcases List.mem_append.mp hp with hp | hp
    · obtain ⟨before, after, u, rfl, hb, hu, hs⟩ := ih hp
      exact ⟨before, after ++ [(s, a)], u, by simp, hb, hu, .step hs ha⟩
    · obtain rfl := List.mem_singleton.mp hp
      exact ⟨past, [], t, rfl, hr, ha, .start⟩

theorem start_visited (h : Run cfg s₀ past s) : s₀ ∈ visited past s := by
  induction h with
  | start => exact mem_visited.mpr (Or.inl rfl)
  | step _ _ ih => exact mem_visited_step.mpr (Or.inl ih)

theorem upto_visited {u : State} (h : Run cfg s₀ past s) (hu : u ∈ visited past s) :
    ∃ before after, past = before ++ after ∧ Run cfg s₀ before u ∧ Run cfg u after s := by
  rcases mem_visited.mp hu with rfl | ⟨a, hp⟩
  · exact ⟨past, [], (List.append_nil past).symm, h, .start⟩
  · obtain ⟨before, after, v, rfl, hb, hv, hs⟩ := h.split hp
    exact ⟨before, (u, a) :: after, rfl, hb, (single hv).append hs⟩

theorem from_visited {u : State} (h : Run cfg s₀ past s) (hu : u ∈ visited past s) :
    ∃ after, Run cfg u after s := by
  obtain ⟨_, after, -, -, hs⟩ := h.upto_visited hu
  exact ⟨after, hs⟩

theorem since {R : State → State → Prop} (hR : ∀ {s a t}, Step cfg s a t → R s t)
    (hrefl : ∀ s, R s s) (htrans : ∀ {s t u}, R s t → R t u → R s u)
    (h : Run cfg s₀ past s) {u : State} (hu : u ∈ visited past s) : R u s := by
  obtain ⟨after, hs⟩ := h.from_visited hu
  exact hs.invariant (P := R u) (fun h hst => htrans h (hR hst)) (hrefl u)

theorem invariant_visited {P : State → Prop} (hP : ∀ {s a t}, P s → Step cfg s a t → P t)
    (h : Run cfg s₀ past s) (h₀ : P s₀) {u : State} (hu : u ∈ visited past s) : P u := by
  obtain ⟨_, _, -, hb, -⟩ := h.upto_visited hu
  exact hb.invariant hP h₀

end Run

theorem State.reachable_iff {cfg : Settings} {s₀ s : State} :
    s₀.Reachable cfg s ↔ ∃ past, Run cfg s₀ past s := by
  constructor
  · intro h
    induction h with
    | refl => exact ⟨[], .start⟩
    | step a _ ha ih =>
      obtain ⟨past, hr⟩ := ih
      exact ⟨_, .step hr ha⟩
  · rintro ⟨past, h⟩
    induction h with
    | start => exact .refl
    | step _ ha ih => exact .step _ ih ha

/-! ## What the calls show -/

namespace State

/-- What `f` makes of the stage of a call. -/
def view {β : Type} (f : Stage → Option β) (s : State) (id : Nat) : Option β :=
  s.calls[id]?.bind f

variable {β : Type} {f : Stage → Option β} {s t : State} {id : Nat} {st : Stage}

theorem view_eq_some {b : β} : s.view f id = some b ↔ ∃ st, s.calls[id]? = some st ∧ f st = some b :=
  Option.bind_eq_some_iff

theorem view_of_call (h : s.calls[id]? = some st) : s.view f id = f st := by
  rw [view, h, Option.bind_some]

theorem view_congr (h : t.calls = s.calls) : t.view f = s.view f := by
  funext i
  rw [view, view, h]

theorem calls_setCall (h : s.calls[id]? = some st) (st' : Stage) (i : Nat) :
    (s.setCall id st').calls[i]? = if i = id then some st' else s.calls[i]? := by
  obtain ⟨hlt, -⟩ := List.getElem?_eq_some_iff.mp h
  by_cases hi : i = id
  · subst hi
    simp [setCall, hlt]
  · simp [setCall, hi, List.getElem?_set_ne (Ne.symm hi)]

theorem view_setCall (h : s.calls[id]? = some st) (st' : Stage) :
    (s.setCall id st').view f = Function.update (s.view f) id (f st') := by
  funext i
  rw [view, calls_setCall h]
  by_cases hi : i = id
  · subst hi
    simp
  · simp [hi, view]

theorem jobs_setJob {j : Job} (h : s.jobs[id]? = some j) (stage : JobStage) :
    (s.setJob id stage).jobs = s.jobs.set id { j with stage := stage } := by
  apply List.ext_getElem?
  intro k
  rw [setJob, List.getElem?_modify, List.getElem?_set]
  obtain ⟨hlt, -⟩ := List.getElem?_eq_some_iff.mp h
  by_cases hk : id = k
  · subst hk
    rw [h]
    simp [hlt]
  · simp [hk]

theorem view_call {r : Request} (hr : f r.stage = none) (h : t.calls = s.calls ++ [r.stage]) :
    t.view f = s.view f := by
  funext i
  rw [view, view, h]
  rcases Nat.lt_trichotomy i s.calls.length with hi | hi | hi
  · rw [List.getElem?_append_left hi]
  · subst hi
    simp [hr]
  · rw [List.getElem?_eq_none (by simp; omega), List.getElem?_eq_none (by omega)]

end State

/-! ## The calls of a move -/

theorem CallMove.quietCalls {cfg : Settings} {s t : State} {call : Nat} {a : Action}
    {st st' : Stage} (h : CallMove cfg s call a st t st') : t.calls = s.calls := by
  cases h with
  | peek => exact (State.quiet_read _ _ _).calls
  | hit => exact (State.quiet_tellLookup _ _ _).calls
  | isRemote => exact (State.quiet_tellLookup _ _ _).calls
  | isLocal => exact (State.quiet_tellLookup _ _ _).calls
  | reread => exact (State.quiet_read _ _ _).calls
  | recheck => exact (State.quiet_read _ _ _).calls
  | record => exact (State.quiet_record _ _ _).calls
  | compile hb => exact hb.frame.calls
  | own hb => exact hb.frame.calls
  | expireWait _ hq => exact hq.calls
  | expireFetch hq => exact hq.calls
  | unfetched hq => exact hq.calls
  | _ => rfl

theorem CallMove.placed {cfg : Settings} {s t : State} {id : Nat} {a : Action} {st st' : Stage}
    (h : CallMove cfg s id a st t st') (hst : s.calls[id]? = some st) :
    (t.setCall id st').calls[id]? = some st' := by
  have hcall : t.calls[id]? = some st := by
    rw [h.quietCalls]
    exact hst
  rw [State.calls_setCall hcall, if_pos rfl]

theorem CallMove.view {β : Type} {f : Stage → Option β} {cfg : Settings} {s t : State} {id : Nat}
    {a : Action} {st st' : Stage} (h : CallMove cfg s id a st t st') (hst : s.calls[id]? = some st) :
    (t.setCall id st').view f = Function.update (s.view f) id (f st') := by
  rw [State.view_setCall (by rw [h.quietCalls]; exact hst) st', State.view_congr h.quietCalls]

/-! ## What becomes of one call -/

section
variable {cfg : Settings} {s t : State} {a : Action} {i : Nat} {st st' : Stage}

theorem Step.call_before (h : Step cfg s a t) (hi : s.calls[i]? = some st) :
    (a.mover? ≠ some i ∧ t.calls[i]? = some st) ∨
      ∃ u st', CallMove cfg s i a st u st' ∧ t = u.setCall i st' ∧ t.calls[i]? = some st' := by
  have hnone : none ≠ some i := by simp
  cases h with
  | call r =>
    refine Or.inl ⟨hnone, ?_⟩
    rw [List.getElem?_append_left (List.getElem?_eq_some_iff.mp hi).1]
    exact hi
  | @move id a st₁ u st' hc hm =>
    have hu : u.calls[id]? = some st₁ := by rw [hm.quietCalls]; exact hc
    by_cases he : i = id
    · subst he
      obtain rfl := Option.some.inj (hi.symm.trans hc)
      exact Or.inr ⟨u, st', hm, rfl, by rw [State.calls_setCall hu, if_pos rfl]⟩
    · refine Or.inl ⟨fun hi' => he (Option.some.inj (hi'.symm.trans hm.mover)), ?_⟩
      rw [State.calls_setCall hu, if_neg he, hm.quietCalls]
      exact hi
  | launch _ _ hq => exact Or.inl ⟨hnone, by rw [State.setJob_calls, hq.calls]; exact hi⟩
  | quiet ha hq => exact Or.inl ⟨by rw [Action.mover?_eq_none ha]; exact hnone, by rw [hq.calls]; exact hi⟩
  | _ => exact Or.inl ⟨hnone, hi⟩

theorem Step.call_after (h : Step cfg s a t) (hi : t.calls[i]? = some st') :
    s.calls[i]? = some st' ∨ (s.calls[i]? = none ∧ ∃ r : Request, a = .call r ∧ st' = r.stage) ∨
      ∃ st u, s.calls[i]? = some st ∧ CallMove cfg s i a st u st' ∧ t = u.setCall i st' := by
  cases hs : s.calls[i]? with
  | some st =>
    rcases h.call_before hs with ⟨-, ht⟩ | ⟨u, st₁, hm, ht, hst⟩
    · exact Or.inl (ht.symm.trans hi)
    · obtain rfl := Option.some.inj (hst.symm.trans hi)
      exact Or.inr (Or.inr ⟨st, u, rfl, hm, ht⟩)
  | none =>
    -- where there was no call only a request brings one
    refine Or.inr (Or.inl ⟨rfl, ?_⟩)
    cases h with
    | call r =>
      refine ⟨r, rfl, ?_⟩
      rw [List.getElem?_append_right (List.getElem?_eq_none_iff.mp hs)] at hi
      obtain ⟨_, he⟩ := List.getElem?_eq_some_iff.mp hi
      simpa using he.symm
    | move hc hm =>
      have hu := (congrArg (fun l : List Stage => l[_]?) hm.quietCalls).trans hc
      rw [State.calls_setCall hu] at hi
      split at hi
      · rename_i he
        rw [he, hc] at hs
        cases hs
      · rw [hm.quietCalls, hs] at hi
        cases hi
    | launch _ _ hq =>
      rw [State.setJob_calls, hq.calls, hs] at hi
      cases hi
    | quiet _ hq =>
      rw [hq.calls, hs] at hi
      cases hi
    | _ =>
      have hc := hs.symm.trans hi
      cases hc

theorem Step.stages {P : Stage → Prop} (hcall : ∀ r : Request, P r.stage)
    (hmove : ∀ {s t : State} {i : Nat} {a : Action} {st st' : Stage},
      CallMove cfg s i a st t st' → P st → P st')
    (h : Step cfg s a t) (hs : ∀ (i : Nat) st, s.calls[i]? = some st → P st) :
    ∀ (i : Nat) st, t.calls[i]? = some st → P st := by
  intro i st hi
  rcases h.call_after hi with hi | ⟨-, r, -, rfl⟩ | ⟨st₀, u, hi, hm, -⟩
  · exact hs i st hi
  · exact hcall r
  · exact hmove hm (hs i st₀ hi)

end

/-! ## What the calls were asked -/

def Called (past : List (State × Action)) (i : Nat) (r : Request) : Prop :=
  ∃ u, (u, .call r) ∈ past ∧ u.calls.length = i

section
variable {cfg : Settings} {s₀ s t : State} {a : Action} {past : List (State × Action)} {i : Nat}
  {r r' : Request} {st : Stage}

theorem called_step :
    Called (past ++ [(s, a)]) i r ↔ Called past i r ∨ (a = .call r ∧ s.calls.length = i) := by
  constructor
  · rintro ⟨u, hu, rfl⟩
    rcases List.mem_append.mp hu with hu | hu
    · exact Or.inl ⟨u, hu, rfl⟩
    · obtain ⟨rfl, rfl⟩ := Prod.mk.inj (List.mem_singleton.mp hu)
      exact Or.inr ⟨rfl, rfl⟩
  · rintro (⟨u, hu, rfl⟩ | ⟨rfl, rfl⟩)
    · exact ⟨u, List.mem_append_left _ hu, rfl⟩
    · exact ⟨s, by simp, rfl⟩

theorem Called.append (h : Called past i r) (after : List (State × Action)) :
    Called (past ++ after) i r := by
  obtain ⟨u, hu, hi⟩ := h
  exact ⟨u, List.mem_append_left _ hu, hi⟩

theorem Step.call_kept (h : Step cfg s a t) (hi : i < s.calls.length) : i < t.calls.length := by
  rcases h.call_before (List.getElem?_eq_getElem hi) with ⟨-, ht⟩ | ⟨_, _, -, -, ht⟩
  · exact (List.getElem?_eq_some_iff.mp ht).1
  · exact (List.getElem?_eq_some_iff.mp ht).1

theorem Run.called_lt (h : Run cfg s₀ past s) (hr : Called past i r) : i < s.calls.length := by
  induction h with
  | start =>
    obtain ⟨u, hu, -⟩ := hr
    cases hu
  | step _ ha ih =>
    have hst := step_of_act ha
    rcases called_step.mp hr with hr | ⟨rfl, rfl⟩
    · exact hst.call_kept (ih hr)
    · obtain rfl := Option.some.inj ha
      simp

theorem Run.called_unique (h : Run cfg s₀ past s) (hr : Called past i r) (hr' : Called past i r') :
    r = r' := by
  induction h with
  | start =>
    obtain ⟨u, hu, -⟩ := hr
    cases hu
  | step h ha ih =>
    rcases called_step.mp hr with hr | ⟨rfl, hi⟩ <;> rcases called_step.mp hr' with hr' | ⟨he, hi'⟩
    · exact ih hr hr'
    · exact absurd hi' (Nat.ne_of_gt (h.called_lt hr))
    · exact absurd hi (Nat.ne_of_gt (h.called_lt hr'))
    · exact Action.call.inj he

/-- What holds of a call when it is asked, and is kept by its moves and by those of others, holds
of each call and what it was asked. A move may use that it holds of all calls before. -/
theorem Run.calls {P : State → Request → Stage → Prop} (h₀ : s₀.calls = [])
    (hcall : ∀ {s} r, P s r r.stage)
    (hmove : ∀ {past s a u i st st' r}, Run cfg s₀ past s →
      (∀ {i : Nat} {st}, s.calls[i]? = some st → ∃ r, Called past i r ∧ P s r st) →
      s.calls[i]? = some st → Called past i r → CallMove cfg s i a st u st' → P s r st →
      P (u.setCall i st') r st')
    (hrest : ∀ {s a t st r}, Step cfg s a t → P s r st → P t r st) (h : Run cfg s₀ past s) :
    ∀ {i : Nat} {st}, s.calls[i]? = some st → ∃ r, Called past i r ∧ P s r st := by
  induction h with
  | start =>
    intro i st hi
    rw [h₀] at hi
    cases hi
  | @step past s a t h ha ih =>
    intro i st hi
    have hst := step_of_act ha
    -- as it was, just asked for, or after a move of its own
    rcases hst.call_after hi with hs | ⟨hs, r, rfl, rfl⟩ | ⟨st₀, u, hs, hm, rfl⟩
    · obtain ⟨r, hr, hP⟩ := ih hs
      exact ⟨r, hr.append _, hrest hst hP⟩
    · refine ⟨r, called_step.mpr (Or.inr ⟨rfl, ?_⟩), hcall r⟩
      have hlt := (List.getElem?_eq_some_iff.mp hi).1
      obtain rfl := Option.some.inj ha
      rw [List.length_append, List.length_singleton] at hlt
      exact Nat.le_antisymm (List.getElem?_eq_none_iff.mp hs) (Nat.le_of_lt_succ hlt)
    · obtain ⟨r, hr, hP⟩ := ih hs
      exact ⟨r, hr.append _, hmove h ih hs hr hm hP⟩

end

/-! ## A small engine -/

namespace Sample

def x : Name := ⟨"x", by decide +kernel⟩

def y : Name := ⟨"y", by decide +kernel⟩

def unit (n : Name) : SourceUnit := ⟨n, "", .localFile⟩

/-- Its compiler runs several times at once, and each name that begins like `x` is remote. -/
def settings : Settings where
  isRemote n := n.startsWith "x"
  builtin := .empty
  repository := "repository"
  backend := "compiler"
  reentrant := true
  listener := .none

end Sample

end OnDemand.Engine
