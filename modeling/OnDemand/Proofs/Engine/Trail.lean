import OnDemand.Proofs.Engine.Telling

/-!
# The trail of a call

What a call and its job tell is picked out of all that is told by whose move tells it. Of a fetch a
call tells the beginning and one end, which is missing only if the repository breaks down
(`Run.fetchHeard`).
-/

namespace OnDemand.Engine

open State

/-! ## Closed beginnings -/

/-- What an event begins has one end among some events, and that comes later. -/
def ClosedIn (e : Event) (es : List Event) : Prop :=
  ∀ before after, es = before ++ e :: after →
    before.countP e.closedBy = 0 ∧ after.countP e.closedBy = 1

/-- Everything that begins ends once. -/
def Bracketed (es : List Event) : Prop :=
  ∀ e, e.opens = true → ClosedIn e es

section
variable {e : Event} {es : List Event} {rel : Event → Bool}

theorem countP_closedBy_filter (hc : ∀ c, e.closedBy c = true → rel c = true) (es : List Event) :
    (es.filter rel).countP e.closedBy = es.countP e.closedBy := by
  rw [List.countP_filter]
  refine List.countP_congr fun c _ => ?_
  rw [Bool.and_eq_true]
  exact ⟨And.left, fun h => ⟨h, hc c h⟩⟩

theorem closedIn_filter (he : rel e = true) (hc : ∀ c, e.closedBy c = true → rel c = true) :
    ClosedIn e (es.filter rel) ↔ ClosedIn e es := by
  constructor
  · rintro h before after rfl
    rw [← countP_closedBy_filter hc before, ← countP_closedBy_filter hc after]
    apply h
    simp [he]
  · intro h before after hes
    obtain ⟨front, back, rfl, rfl, hback⟩ := List.filter_eq_append_iff.mp hes
    obtain ⟨skipped, rest, rfl, hskipped, -, rfl⟩ := List.filter_eq_cons_iff.mp hback
    have hnone : skipped.countP e.closedBy = 0 := by
      rw [List.countP_eq_zero]
      exact fun c hmem hcl => hskipped c hmem (hc c hcl)
    have := h (front ++ skipped) rest (by simp)
    rw [List.countP_append, hnone, Nat.add_zero] at this
    rwa [countP_closedBy_filter hc, countP_closedBy_filter hc]

theorem closedIn_nil (e : Event) : ClosedIn e [] := by
  intro before after h
  simp at h

theorem closedIn_singleton {x : Event} : ClosedIn e [x] ↔ x ≠ e := by
  constructor
  · rintro h rfl
    cases (h [] [] rfl).2
  · intro hx before after h
    cases before with
    | nil => exact absurd (List.cons.inj h).1 hx
    | cons y before => simp at h

theorem closedIn_pair {x y : Event} :
    ClosedIn e [x, y] ↔ (x = e → e.closedBy y = true) ∧ y ≠ e := by
  constructor
  · intro h
    constructor
    · rintro rfl
      have := (h [] [y] rfl).2
      simpa [List.countP_singleton] using this
    · rintro rfl
      cases (h [x] [] rfl).2
  · rintro ⟨hx, hy⟩ before after h
    cases before with
    | nil =>
      obtain ⟨rfl, rfl⟩ := List.cons.inj h
      simp [hx rfl]
    | cons z before =>
      cases before with
      | nil => exact absurd (List.cons.inj (List.cons.inj h).2).1 hy
      | cons => simp at h

end

/-! ## The trail of a call -/

def speaks (jobs : List Nat) (i : Nat) (a : Action) : Bool :=
  a.mover? = some i || jobs.any fun k => a = .prepare k

def State.tells (cfg : Settings) (s : State) (a : Action) : List Event :=
  match s.act cfg a with
  | some t => t.told.drop s.told.length
  | none => []

def trailOf (cfg : Settings) (jobs : List Nat) (i : Nat) (past : List (State × Action)) :
    List Event :=
  past.flatMap fun p => if speaks jobs i p.2 then p.1.tells cfg p.2 else []

def trail (cfg : Settings) (past : List (State × Action)) (i : Nat) : List Event :=
  trailOf cfg (handovers past i) i past

/-- What a call and its job have told of fetches and compiler runs. -/
def marks (cfg : Settings) (past : List (State × Action)) (i : Nat) : List Event :=
  (trail cfg past i).filter Event.marked

section
variable {cfg : Settings} {now : Moment} {store : Store} {ttl : Option Duration}
  {past : List (State × Action)} {s t u : State} {a : Action} {i k : Nat} {es : List Event}

theorem tells_eq (ha : s.act cfg a = some t) (h : s.Tells t es) :
    (s.tells cfg a).filter Event.marked = es := by
  obtain ⟨all, htold, rfl⟩ := h
  simp [State.tells, ha, htold]

theorem marks_of_rest (hne : a.mover? ≠ some i) (hno : ∀ k ∈ handovers past i, a ≠ .prepare k) :
    marks cfg (past ++ [(s, a)]) i = marks cfg past i := by
  have hspeaks : speaks (handovers past i) i a = false := by
    simpa [speaks, hne] using hno
  simp [marks, trail, trailOf, handovers_step (handover?_of_rest hne), hspeaks]

theorem marks_of_prepare (hk : k ∈ handovers past i) (ha : s.act cfg (.prepare k) = some t)
    (h : s.Tells t es) : marks cfg (past ++ [(s, .prepare k)]) i = marks cfg past i ++ es := by
  have hspeaks : speaks (handovers past i) i (.prepare k) = true := by
    simpa [speaks] using Or.inr hk
  simp [marks, trail, trailOf, handovers_step (handover?_of_rest (a := .prepare k) (by simp [Action.mover?])),
    hspeaks, tells_eq ha h]

theorem Run.prepared_lt (h : Run cfg (.fresh now store ttl) past s) (hu : (u, .prepare k) ∈ past) :
    k < s.jobs.length := by
  obtain ⟨before, after, t, -, -, ha, hs⟩ := h.split hu
  obtain ⟨j, hj, -⟩ := Option.bind_eq_some_iff.mp ha
  obtain ⟨j', hj', -⟩ := (step_of_act ha).job_kept hj
  obtain ⟨j'', hj'', -⟩ := hs.job_kept hj'
  exact (List.getElem?_eq_some_iff.mp hj'').1

theorem handover?_eq {m : Nat} (h : s.handover? i a = some m) : m = s.jobs.length := by
  simp only [State.handover?, Option.ite_none_right_eq_some, Option.bind_eq_some_iff] at h
  obtain ⟨-, b, -, hb⟩ := h
  unfold BatchStage.handover? at hb
  split at hb
  · split at hb
    · cases hb
    · exact (Option.some.inj hb).symm
  · cases hb

theorem trailOf_fresh (h : Run cfg (.fresh now store ttl) past s) (jobs : List Nat) :
    trailOf cfg (jobs ++ [s.jobs.length]) i past = trailOf cfg jobs i past := by
  unfold trailOf
  rw [List.flatMap_def, List.flatMap_def]
  refine congrArg List.flatten (List.map_congr_left fun p hp => ?_)
  have hne : p.2 ≠ .prepare s.jobs.length := by
    intro he
    exact Nat.lt_irrefl _ (h.prepared_lt (u := p.1) (he ▸ hp))
  simp [speaks, hne]

theorem Run.marks_of_move (h : Run cfg (.fresh now store ttl) past s) (hi : a.mover? = some i)
    (ha : s.act cfg a = some t) (htells : s.Tells t es) :
    marks cfg (past ++ [(s, a)]) i = marks cfg past i ++ es := by
  have hspeaks : ∀ jobs, speaks jobs i a = true := by simp [speaks, hi]
  have hlast := tells_eq ha htells
  have htrail : ∀ jobs, trailOf cfg jobs i (past ++ [(s, a)]) =
      trailOf cfg jobs i past ++ s.tells cfg a := by
    intro jobs
    simp [trailOf, hspeaks]
  have hjobs : trailOf cfg (handovers (past ++ [(s, a)]) i) i past = trail cfg past i := by
    cases hhand : s.handover? i a with
    | none => rw [handovers_step hhand, trail]
    | some m =>
      obtain rfl := handover?_eq hhand
      have hone : handovers [(s, a)] i = [s.jobs.length] := by simp [handovers, hhand]
      rw [handovers_append, hone, trailOf_fresh h, trail]
  rw [marks, trail, htrail, hjobs, List.filter_append, hlast, marks]

/-! ## The fetch of a call -/

/-- The repository has broken down under the fetch of a call. -/
def Crashed (past : List (State × Action)) (i : Nat) : Prop :=
  ∃ u, (u, .fetched i .crashed) ∈ past

theorem crashed_step :
    Crashed (past ++ [(s, a)]) i ↔ Crashed past i ∨ a = .fetched i .crashed := by
  simp [Crashed, exists_or, eq_comm]

def fetchMarks (cfg : Settings) (past : List (State × Action)) (i : Nat) : List Event :=
  (marks cfg past i).filter Event.ofFetch

/-- What a call that has ended its fetch, or has not had any, has told of it. -/
inductive FetchMarks (crashed : Prop) : List Event → Prop where
  | none : ¬ crashed → FetchMarks crashed []
  | closed {n r e} : ¬ crashed → e.endsFetch n = true →
      FetchMarks crashed [.fetchStarted n r, e]
  | lost {n r} : crashed → FetchMarks crashed [.fetchStarted n r]

def Stage.FetchHeard (cfg : Settings) (crashed : Prop) (es : List Event) : Stage → Prop
  | fetching n _ _ _ => es = [.fetchStarted n cfg.repository] ∧ ¬ crashed
  | compiling _ _ _ => FetchMarks crashed es
  | rechecking _ _ => FetchMarks crashed es
  | recording _ _ _ => FetchMarks crashed es
  | releasing _ _ => FetchMarks crashed es
  | landing _ _ => FetchMarks crashed es
  | finished _ => FetchMarks crashed es
  | _ => es = [] ∧ ¬ crashed

variable {crashed : Prop} {st st' : Stage}

theorem fetchMarks_of_nil (h : es = [] ∧ ¬ crashed) : FetchMarks crashed es := by
  obtain ⟨rfl, hc⟩ := h
  exact .none hc

theorem fetchHeard_resume {b : BatchStage} {next : BatchStage ⊕ BatchEnd} (hb : st.batch? = some b)
    (h : st.FetchHeard cfg crashed es) : (st.resume next).FetchHeard cfg crashed es := by
  cases st with
  | compiling n g b =>
    rcases next with b' | e
    · exact h
    · cases e <;> exact h
  | batch b =>
    rcases next with b' | e
    · exact h
    · exact fetchMarks_of_nil h
  | _ => cases hb

theorem CallMove.fetchHeard (hm : CallMove cfg s i a st u st') (hst : st.Silent ∨ st.batch? ≠ none)
    (h : st.FetchHeard cfg crashed es) :
    st'.FetchHeard cfg crashed es ∧ a ≠ .fetched i .crashed := by
  cases hm with
  | @compile n g _ b _ next hb =>
    show ((Stage.compiling n g b).resume next).FetchHeard cfg crashed es ∧ _
    refine ⟨fetchHeard_resume rfl h, ?_⟩
    rcases hb.action with rfl | rfl <;> simp
  | @own _ b _ next hb =>
    show ((Stage.batch b).resume next).FetchHeard cfg crashed es ∧ _
    refine ⟨fetchHeard_resume rfl h, ?_⟩
    rcases hb.action with rfl | rfl <;> simp
  | depart => exact absurd hst (by simp [Stage.Silent, Stage.batch?])
  | expireFetch => exact absurd hst (by simp [Stage.Silent, Stage.batch?])
  | fetched => exact absurd hst (by simp [Stage.Silent, Stage.batch?])
  | unfetched => exact absurd hst (by simp [Stage.Silent, Stage.batch?])
  | _ => first | exact ⟨h, by simp⟩ | exact ⟨fetchMarks_of_nil h, by simp⟩

theorem batchWord_ofFetch {b : BatchStage} {next : BatchStage ⊕ BatchEnd}
    (h : BatchWord b next es) : es.filter Event.ofFetch = [] := by
  cases h with
  | silent => rfl
  | made => rfl
  | ended _ he => simp [Event.ofFetch_of_ofBuild (Event.ofBuild_of_endsBuild he)]

theorem Word.fetchHeard {marks : List Event} (hword : Word cfg i a st st' es)
    (hm : CallMove cfg s i a st u st') (h : st.FetchHeard cfg (Crashed past i) marks) :
    st'.FetchHeard cfg (Crashed (past ++ [(s, a)]) i) (marks ++ es.filter Event.ofFetch) := by
  have hsame : a ≠ .fetched i .crashed → Crashed (past ++ [(s, a)]) i = Crashed past i := by
    intro hne
    simp [crashed_step, hne]
  cases hword with
  | silent hst =>
    obtain ⟨h, hne⟩ := hm.fetchHeard (Or.inl hst) h
    rw [hsame hne]
    simpa using h
  | departs =>
    obtain ⟨rfl, hc⟩ := h
    cases hm with
    | depart =>
      rw [hsame (by simp)]
      exact ⟨rfl, hc⟩
  | lost ha =>
    obtain ⟨rfl, -⟩ := h
    -- a fetch that breaks down has no event for its end
    exact .lost (crashed_step.mpr (Or.inr ha))
  | @fetched n _ _ _ _ e hne he =>
    obtain ⟨rfl, hc⟩ := h
    rw [hsame hne]
    have hmarks : FetchMarks (Crashed past i)
        ([.fetchStarted n cfg.repository] ++ [e].filter Event.ofFetch) := by
      rw [List.filter_cons_of_pos (Event.ofFetch_of_endsFetch he)]
      exact .closed hc he
    cases hm <;> exact hmarks
  | batch hb hbw =>
    obtain ⟨h, hne⟩ := hm.fetchHeard (Or.inr (by simp [hb])) h
    rw [hsame hne, batchWord_ofFetch hbw, List.append_nil]
    exact h

theorem fetchMarks_of_rest (ha : s.act cfg a = some t) (hne : a.mover? ≠ some i) :
    fetchMarks cfg (past ++ [(s, a)]) i = fetchMarks cfg past i := by
  unfold fetchMarks
  by_cases hno : ∀ k ∈ handovers past i, a ≠ .prepare k
  · rw [marks_of_rest hne hno]
  · simp only [not_forall, not_not] at hno
    obtain ⟨k, hk, rfl⟩ := hno
    rcases tells_prepare ha with ⟨l, e, -, he, htells⟩ | ⟨-, htells⟩
    · rw [marks_of_prepare hk ha htells, List.filter_append]
      simp [Event.ofFetch_of_ofBuild (Event.ofBuild_of_startsBuild he)]
    · rw [marks_of_prepare hk ha htells, List.append_nil]

theorem Run.fetchHeard (h : Run cfg (.fresh now store ttl) past s) (i : Nat) :
    (s.calls[i]? = none → fetchMarks cfg past i = [] ∧ ¬ Crashed past i) ∧
      ∀ st, s.calls[i]? = some st → st.FetchHeard cfg (Crashed past i) (fetchMarks cfg past i) := by
  refine h.life (P := fun past _ o => (o = none → fetchMarks cfg past i = [] ∧ ¬ Crashed past i) ∧
    ∀ st, o = some st → st.FetchHeard cfg (Crashed past i) (fetchMarks cfg past i)) i ?_ ?_ ?_ ?_
  · exact ⟨fun _ => ⟨rfl, by simp [Crashed]⟩, by simp⟩
  · intro past s a t _ ha hne _ ih
    have hcrashed : Crashed (past ++ [(s, a)]) i = Crashed past i := by
      have : a ≠ .fetched i .crashed := by
        rintro rfl
        exact hne rfl
      simp [crashed_step, this]
    rw [fetchMarks_of_rest ha hne, hcrashed]
    exact ih
  · intro past s r t _ ha _ ih
    have hcrashed : Crashed (past ++ [(s, .call r)]) i = Crashed past i := by simp [crashed_step]
    rw [fetchMarks_of_rest ha (by simp [Action.mover?]), hcrashed]
    refine ⟨by simp, ?_⟩
    rintro st ⟨⟩
    cases r <;> exact ih.1 rfl
  · intro past s a u st st' h hi hm ha ih
    refine ⟨by simp, ?_⟩
    rintro st₁ ⟨⟩
    obtain ⟨es, hword, htells⟩ := word_of_move ha hi hm.mover (hm.placed hi)
    rw [fetchMarks, h.marks_of_move hm.mover ha htells, List.filter_append]
    exact hword.fetchHeard hm (ih.2 st rfl)

end

end OnDemand.Engine
