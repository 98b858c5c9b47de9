import OnDemand.Proofs.Engine.Clock
import OnDemand.Proofs.Engine.Outcome
import OnDemand.Proofs.Engine.Publication
import OnDemand.Proofs.Engine.Schedule

/-!
# Calls that fail alone

When one call is made of a new engine, nobody else moves (`Run.mover_first`), so the store changes
by what the call itself stores and by nothing else (`Run.store_kept`). A lookup that fails has stored
nothing, and neither has a batch.
-/

namespace OnDemand.Engine

open State

variable {cfg : Settings} {s t u : State} {a : Action} {past : List (State × Action)} {i : Nat}
  {now : Moment} {store : Store} {ttl : Option Duration} {r : Request} {e : CallError}

/-! ## The only call -/

theorem Action.Unasked.not_call (h : a.Unasked) (r : Request) : a ≠ .call r := by
  rintro rfl
  rcases h with h | ⟨_, h⟩ <;> cases h

theorem Step.store_of_unmoved (h : Step cfg s a t) (ha : a.Unasked) (hm : a.mover? = none) :
    t.store = s.store := by
  rcases ha with hinner | ⟨nanos, rfl⟩
  · exact h.store_of_job hinner hm
  · cases h with
    | move _ hcall =>
      rw [hcall.mover] at hm
      cases hm
    | quiet _ hq => exact hq.store

theorem Step.called_of_mover (h : Step cfg s a t) (hi : a.mover? = some i) : s.calls[i]? ≠ none := by
  cases h with
  | move hc hm =>
    obtain rfl := Option.some.inj (hm.mover.symm.trans hi)
    rw [hc]
    simp
  | quiet hq =>
    cases a <;> cases hi <;> cases hq
  | _ => cases hi

theorem Run.uncalled (h : Run cfg u past t) (hun : ∀ p ∈ past, p.2.Unasked)
    (hi : u.calls[i]? = none) : t.calls[i]? = none := by
  induction h with
  | start => exact hi
  | @step past s a t _ ha ih =>
    have hs := ih fun p hp => hun p (List.mem_append_left _ hp)
    cases ht : t.calls[i]? with
    | none => rfl
    | some st =>
      rcases (step_of_act ha).call_after ht with hst | ⟨-, r, rfl, -⟩ | ⟨_, _, hst, -, -⟩
      · rw [hs] at hst
        cases hst
      · exact absurd rfl ((hun (s, .call r) (by simp)).not_call r)
      · rw [hs] at hst
        cases hst

section
variable (hact : (State.fresh now store ttl).act cfg (.call r) = some u)
include hact

theorem calls_of_call : u.calls = [r.stage] := by
  obtain rfl := Option.some.inj hact
  rfl

variable (h : Run cfg u past t) (hun : ∀ p ∈ past, p.2.Unasked)
include h hun

theorem Run.called_first (hi : t.calls[i]? ≠ none) : i = 0 := by
  by_contra hne
  refine hi (h.uncalled hun ?_)
  rw [calls_of_call hact]
  simp [hne]

/-- After the first call of an engine, no other call moves. -/
theorem Run.mover_first {p : State × Action} (hp : p ∈ past) (hi : p.2.mover? = some i) : i = 0 := by
  obtain ⟨before, after, v, rfl, hbefore, hv, -⟩ := h.split hp
  exact hbefore.called_first hact (fun q hq => hun q (List.mem_append_left _ hq))
    ((step_of_act hv).called_of_mover hi)

/-- What the call does not store nobody stores. -/
theorem Run.store_kept (hfirst : Untouched cfg past 0) : t.store = store := by
  induction h with
  | start =>
    obtain rfl := Option.some.inj hact
    rfl
  | @step past s a t hrun ha ih =>
    rw [← ih (fun p hp => hun p (List.mem_append_left _ hp))
      fun p hp => hfirst p (List.mem_append_left _ hp)]
    cases hm : a.mover? with
    | none => exact (step_of_act ha).store_of_unmoved (hun (s, a) (by simp)) hm
    | some i =>
      obtain rfl := (hrun.step ha).mover_first hact hun (p := (s, a)) (by simp) hm
      exact hfirst (s, a) (by simp) hm t ha

/-! ## Failures -/

theorem Run.store_of_failed_batch (hi : t.calls[0]? = some (.finished (.batch (.failed e)))) :
    t.store = store := by
  have hfull := (Run.single hact).append h
  obtain ⟨-, -, hdeed⟩ := (hfull.stood 0).closed (hfull.returned_of_answer hi)
  exact h.store_kept hact hun fun p hp => hdeed p (List.mem_append_right _ hp)

theorem Run.not_outlasts_of_answer {a : Answer} (ha : a.overflow? = none)
    (hi : t.calls[0]? = some (.finished a)) {p : State × Action} (hp : p ∈ past) :
    ¬ p.1.Outlasts p.2 := by
  intro hout
  obtain ⟨k, _, _, hk, -⟩ := id hout
  obtain rfl := h.mover_first hact hun hp (by rw [hk]; rfl)
  have hfull := (Run.single hact).append h
  have hmem : (p.1, .advance 0) ∈ [(State.fresh now store ttl, .call r)] ++ past := by
    rw [← hk]
    exact List.mem_append_right _ hp
  obtain ⟨o, ho⟩ := hfull.broken_of_outlasts hmem (hk ▸ hout)
  obtain ⟨st, hst, ho⟩ := view_eq_some.mp ho
  obtain rfl := Option.some.inj (hi.symm.trans hst)
  rw [Stage.overflow?, ha] at ho
  cases ho

end

theorem Run.store_of_failed_lookup {n : Name} {limits : Limits}
    (hact : (State.fresh now store ttl).act cfg (.call (.resolve n limits)) = some u)
    (h : Run cfg u past t) (hun : ∀ p ∈ past, p.2.Unasked)
    (hi : t.calls[0]? = some (resolved (.failed e))) : t.store = store := by
  have hnew : Run cfg (.fresh now store ttl) [] (.fresh now store ttl) := .start
  have hidle := hnew.idle (by simp [State.Settled, State.fresh]) (by simp [State.fresh])
  obtain ⟨st, hlone⟩ := h.lone hidle hact hun fun p hp => h.not_outlasts_of_answer hact hun rfl hi hp
  obtain rfl := Option.some.inj (hlone.call.symm.trans hi)
  obtain ⟨r, m, hr, hout⟩ := hlone.outcome
  cases hr
  exact hout.failed e rfl

/-! ## On the schedule -/

namespace World

variable {σ : Type} {host : Host σ} {w : World σ}

theorem call_of_answer (hw : w.state = .fresh now store ttl) {a : Answer}
    (ha : (w.call cfg host r).2 = some a) :
    (w.call cfg host r).1.state.calls[0]? = some (.finished a) := by
  have hid : w.state.calls.length = 0 := by
    rw [hw]
    rfl
  unfold call start answer? at ha
  rw [hid] at ha
  obtain ⟨st, hst, ha⟩ := Option.bind_eq_some_iff.mp ha
  cases st with
  | finished b =>
    obtain rfl := Option.some.inj ha
    unfold call start
    rw [hid]
    exact hst
  | _ => cases ha

theorem store_of_failed_batch (hquiet : ∀ e x, host.meanwhile e x = [])
    (hw : w.state = .fresh now store ttl)
    (ha : (w.call cfg host r).2 = some (.batch (.failed e))) :
    (w.call cfg host r).1.state.store = store := by
  obtain ⟨u, past, hact, h, hun⟩ := run_call cfg host hquiet w r
  rw [hw] at hact
  exact h.store_of_failed_batch hact hun (call_of_answer hw ha)

theorem store_of_failed_lookup (hquiet : ∀ e x, host.meanwhile e x = [])
    (hw : w.state = .fresh now store ttl) {n : Name} {limits : Limits}
    (ha : (w.call cfg host (.resolve n limits)).2 = some (.lookup (.resolved (.failed e)))) :
    (w.call cfg host (.resolve n limits)).1.state.store = store := by
  obtain ⟨u, past, hact, h, hun⟩ := run_call cfg host hquiet w (.resolve n limits)
  rw [hw] at hact
  exact h.store_of_failed_lookup hact hun (call_of_answer hw ha)

end World

end OnDemand.Engine
