import OnDemand.Engine.Schedule
import OnDemand.Proofs.Engine.Holding
import OnDemand.Proofs.Engine.Work

/-!
# The schedule makes runs

Whatever the schedule does, the host is asked for an answer or a move is made that nobody asks for
(`Goes`). So with any repository and any compiler it is a run of the engine (`reaches_call`), what
the host keeps whenever it is asked it keeps through a call (`host_call`), and where nobody stores
anything meanwhile the run of a call is the call and moves of the engine (`run_call`).
-/

namespace OnDemand.Engine

def Reaches (cfg : Settings) (s t : State) : Prop :=
  ∃ past, Run cfg s past t

namespace Reaches

variable {cfg : Settings} {s t u : State}

theorem refl (s : State) : Reaches cfg s s := ⟨[], .start⟩

theorem trans (h : Reaches cfg s t) (h' : Reaches cfg t u) : Reaches cfg s u := by
  obtain ⟨past, hp⟩ := h
  obtain ⟨after, ha⟩ := h'
  exact ⟨past ++ after, hp.append ha⟩

theorem single {a : Action} (h : s.act cfg a = some t) : Reaches cfg s t := ⟨_, Run.single h⟩

theorem store_extends (h : Reaches cfg s t) : t.store.Extends s.store := by
  obtain ⟨past, hp⟩ := h
  exact hp.extends hp.start_visited

end Reaches

namespace World

/-- What a schedule can come to while nobody asks for anything. -/
inductive Goes {σ : Type} (cfg : Settings) (host : Host σ) (w : World σ) : World σ → Prop
  | start : Goes cfg host w w
  | fetch {u : World σ} (h : Goes cfg host w u) (id : Nat) (n : Name) :
      Goes cfg host w { u with host := (host.fetch id n u.state u.host).1 }
  | build {u : World σ} (h : Goes cfg host w u) (id : Nat) (j : Job) (processors : ProcessorSet) :
      Goes cfg host w { u with host := (host.build id j processors u.state u.host).1 }
  | move {u v : World σ} {a : Action} (h : Goes cfg host w u) (ha : a.Unasked)
      (hact : u.act cfg host a = some v) : Goes cfg host w v

section
variable {σ : Type} {cfg : Settings} {host : Host σ} {w u v : World σ}

theorem Goes.trans (h : Goes cfg host w u) (h' : Goes cfg host u v) : Goes cfg host w v := by
  induction h' with
  | start => exact h
  | fetch _ id n ih => exact ih.fetch id n
  | build _ id j processors ih => exact ih.build id j processors
  | move _ ha hact ih => exact ih.move ha hact

theorem reaches_puts : ∀ (as : List Artifact) (s : State),
    Reaches cfg s (as.foldl (fun s a => (s.act cfg (.put a)).getD s) s)
  | [], s => .refl s
  | a :: as, s => by
    rw [List.foldl_cons]
    refine Reaches.trans ?_ (reaches_puts as _)
    cases h : s.act cfg (.put a) with
    | none => exact .refl s
    | some t => exact .single h

theorem reaches_act {a : Action} (h : w.act cfg host a = some u) : Reaches cfg w.state u.state := by
  unfold act at h
  obtain ⟨s, hs, rfl⟩ := Option.map_eq_some_iff.mp h
  exact (Reaches.single hs).trans (reaches_puts _ s)

theorem host_act {a : Action} (h : w.act cfg host a = some u) : u.host = w.host := by
  unfold act at h
  obtain ⟨s, -, rfl⟩ := Option.map_eq_some_iff.mp h
  rfl

theorem Goes.reaches (h : Goes cfg host w u) : Reaches cfg w.state u.state := by
  induction h with
  | start => exact .refl _
  | fetch _ _ _ ih => exact ih
  | build _ _ _ _ ih => exact ih
  | move _ _ hact ih => exact ih.trans (reaches_act hact)

theorem Goes.kept {P : σ → Prop} (h : Goes cfg host w u)
    (hfetch : ∀ id n s x, P x → P (host.fetch id n s x).1)
    (hbuild : ∀ id j processors s x, P x → P (host.build id j processors s x).1)
    (hw : P w.host) : P u.host := by
  induction h with
  | start => exact hw
  | fetch _ id n ih => exact hfetch id n _ _ ih
  | build _ id j processors ih => exact hbuild id j processors _ _ ih
  | move _ _ hact ih =>
    rw [host_act hact]
    exact ih

theorem act_quiet {a : Action} (hquiet : ∀ e x, host.meanwhile e x = []) (h : w.act cfg host a = some u) :
    w.state.act cfg a = some u.state := by
  unfold act at h
  obtain ⟨s, hs, rfl⟩ := Option.map_eq_some_iff.mp h
  have harrived : (s.told.drop w.state.told.length).flatMap (fun e => host.meanwhile e w.host) = [] :=
    List.flatMap_eq_nil_iff.mpr fun e _ => hquiet e w.host
  rw [hs]
  simp only [harrived, List.foldl_nil]

theorem Goes.run (h : Goes cfg host w u) (hquiet : ∀ e x, host.meanwhile e x = []) :
    ∃ past, Run cfg w.state past u.state ∧ ∀ p ∈ past, p.2.Unasked := by
  induction h with
  | start => exact ⟨[], .start, by simp⟩
  | fetch _ _ _ ih => exact ih
  | build _ _ _ _ ih => exact ih
  | @move u v a _ ha hact ih =>
    obtain ⟨past, hrun, hun⟩ := ih
    refine ⟨past ++ [(u.state, a)], hrun.step (act_quiet hquiet hact), fun p hp => ?_⟩
    rcases List.mem_append.mp hp with hp | hp
    · exact hun p hp
    · obtain rfl := List.mem_singleton.mp hp
      exact ha

end

/-! ## The schedule -/

variable {σ : Type} {w w' : World σ} (cfg : Settings) (host : Host σ)

theorem goes_act {a : Action} (ha : a.Unasked) (h : w.act cfg host a = some w') : Goes cfg host w w' :=
  Goes.start.move ha h

theorem goes_turnCall (w : World σ) (id : Nat) : Goes cfg host w (w.turnCall cfg host id).1 := by
  unfold turnCall
  split
  · rename_i name _
    have hasked : Goes cfg host w { w with host := (host.fetch id name w.state w.host).1 } :=
      Goes.start.fetch id name
    simp only
    split
    · rename_i he
      exact hasked.move (Or.inl rfl) he
    · rename_i hf
      obtain ⟨r, -, hr⟩ := Option.bind_eq_some_iff.mp hf
      exact hasked.move (Or.inl rfl) hr
    · exact hasked
  · split
    · rename_i ha
      exact goes_act cfg host (Or.inl rfl) ha
    · rename_i he
      exact goes_act cfg host (Or.inl rfl) he
    · exact .start

theorem goes_turnJob (w : World σ) (id : Nat) : Goes cfg host w (w.turnJob cfg host id).1 := by
  unfold turnJob
  split
  · rename_i job _
    split
    · rename_i processors _
      have hasked : Goes cfg host w
          { w with host := (host.build id job processors w.state w.host).1 } :=
        Goes.start.build id job processors
      simp only
      split
      · rename_i hb
        obtain ⟨r, -, hr⟩ := Option.bind_eq_some_iff.mp hb
        exact hasked.move (Or.inl rfl) hr
      · exact hasked
    · split
      · rename_i hp
        exact goes_act cfg host (Or.inl rfl) hp
      · exact .start
  · exact .start

theorem goes_turn (w : World σ) (a : Actor) : Goes cfg host w (w.turn cfg host a).1 := by
  cases a with
  | call id => exact goes_turnCall cfg host w id
  | job id => exact goes_turnJob cfg host w id

theorem goes_turnFirst : ∀ (as : List Actor) (w : World σ),
    Goes cfg host w (w.turnFirst cfg host as).1
  | [], w => .start
  | a :: as, w => by
    have hturn := goes_turn cfg host w a
    unfold turnFirst
    split
    · rename_i h
      rw [h] at hturn
      exact hturn
    · rename_i u h
      rw [h] at hturn
      exact hturn.trans (goes_turnFirst as u)

theorem goes_settleWithin : ∀ (n : Nat) (last : Actor) (w : World σ),
    Goes cfg host w (settleWithin cfg host n last w)
  | 0, _, w => .start
  | n + 1, last, w => by
    have hfirst := goes_turnFirst cfg host (last :: w.actors) w
    unfold settleWithin
    split
    · rename_i u a h
      rw [h] at hfirst
      exact hfirst.trans (goes_settleWithin n a u)
    · rename_i u h
      rw [h] at hfirst
      exact hfirst

theorem goes_settle (w : World σ) (first : Actor) : Goes cfg host w (w.settle cfg host first) :=
  goes_settleWithin cfg host _ first w

theorem goes_elapseTo (w : World σ) (t : Moment) : Goes cfg host w (w.elapseTo cfg host t) := by
  unfold elapseTo
  cases h : w.act cfg host (.elapse (t - w.state.now)) with
  | none => exact .start
  | some w' => exact goes_act cfg host (Or.inr ⟨_, rfl⟩) h

theorem goes_awaitWithin (id : Nat) : ∀ (n : Nat) (w : World σ),
    Goes cfg host w (awaitWithin cfg host id n w)
  | 0, w => .start
  | n + 1, w => by
    have hsettle := goes_settle cfg host w (.call id)
    unfold awaitWithin
    simp only
    split
    · exact hsettle
    · split
      · rename_i t _
        exact hsettle.trans ((goes_elapseTo cfg host _ t).trans (goes_awaitWithin id n _))
      · exact hsettle

theorem goes_sleepWithin (t : Moment) : ∀ (n : Nat) (w : World σ),
    Goes cfg host w (sleepWithin cfg host t n w)
  | 0, w => .start
  | n + 1, w => by
    unfold sleepWithin
    split
    · rename_i d _
      split
      · exact (goes_elapseTo cfg host w d).trans
          ((goes_settle cfg host _ _).trans (goes_sleepWithin t n _))
      · exact goes_elapseTo cfg host w t
    · exact goes_elapseTo cfg host w t

/-! ## Calls -/

theorem start_spec (w : World σ) (r : Request) :
    w.act cfg host (.call r) = some (w.start cfg host r).1 := by
  unfold start act
  rfl

theorem goes_call (w : World σ) (r : Request) :
    Goes cfg host (w.start cfg host r).1 (w.call cfg host r).1 :=
  goes_awaitWithin cfg host _ _ _

/-- Making a call and waiting for its answer is a run of the engine. -/
theorem reaches_call (w : World σ) (r : Request) :
    Reaches cfg w.state (w.call cfg host r).1.state :=
  (reaches_act (start_spec cfg host w r)).trans (goes_call cfg host w r).reaches

/-- What the host keeps whenever it is asked is so after a call. -/
theorem host_call {P : σ → Prop} (w : World σ) (r : Request)
    (hfetch : ∀ id n s x, P x → P (host.fetch id n s x).1)
    (hbuild : ∀ id j processors s x, P x → P (host.build id j processors s x).1)
    (hw : P w.host) : P (w.call cfg host r).1.host := by
  refine (goes_call cfg host w r).kept hfetch hbuild ?_
  rw [host_act (start_spec cfg host w r)]
  exact hw

/-- Where nobody else is at work, a call is followed by moves of the engine and of the clock. -/
theorem run_call (hquiet : ∀ e x, host.meanwhile e x = []) (w : World σ) (r : Request) :
    ∃ u past, w.state.act cfg (.call r) = some u ∧ Run cfg u past (w.call cfg host r).1.state ∧
      ∀ p ∈ past, p.2.Unasked := by
  obtain ⟨past, hrun, hun⟩ := (goes_call cfg host w r).run hquiet
  exact ⟨_, past, act_quiet hquiet (start_spec cfg host w r), hrun, hun⟩

theorem reaches_sleep (w : World σ) (d : Duration) :
    Reaches cfg w.state (w.sleep cfg host d).state :=
  (goes_sleepWithin cfg host _ _ w).reaches

end World

end OnDemand.Engine
