import OnDemand.Proofs.Engine.Waiting

/-!
# Some call can always go on

While a call has not answered, some move is possible that is not up to a caller (`Run.progress`): the
waits from the call go down and end at a call that can go on, or at one whose job waits for a
compiler that can.
-/

namespace OnDemand.Engine

open State

section
variable {cfg : Settings} {s : State} {i k : Nat} {now : Moment} {store : Store}
  {ttl : Option Duration} {past : List (State × Action)}

/-- A move that is not up to a caller, where the compiler answers each job as `reply` says. -/
inductive Due (reply : Job → BuildReply) (s : State) : Action → Prop where
  | advance (i : Nat) : Due reply s (.advance i)
  | prepare (k : Nat) : Due reply s (.prepare k)
  | fetched (i : Nat) : Due reply s (.fetched i .missing)
  | built {k : Nat} {j : Job} : s.jobs[k]? = some j → Due reply s (.built k (reply j))

def Moves (cfg : Settings) (reply : Job → BuildReply) (s : State) : Prop :=
  ∃ a, Due reply s a ∧ (s.act cfg a).isSome

variable {reply : Job → BuildReply}

theorem State.CanStep.moves (h : s.CanStep cfg i) : Moves cfg reply s := by
  cases h with
  | advance h => exact ⟨_, .advance i, h⟩
  | fetched h => exact ⟨_, .fetched i, h .missing⟩
  | @prepare b submitted k deadline _ h => exact ⟨_, .prepare k, h⟩
  | @built b submitted k deadline _ h =>
    obtain ⟨t, ht⟩ := Option.isSome_iff_exists.mp (h .crashed)
    obtain ⟨j, hj, -⟩ := Option.bind_eq_some_iff.mp ht
    exact ⟨_, .built hj, h (reply j)⟩

theorem State.Occupied.moves (h : s.Occupied) (hk : s.occupant = some k) : Moves cfg reply s := by
  obtain ⟨j, hj, hs | ⟨p, hs⟩⟩ := h k hk
  · refine ⟨_, .prepare k, ?_⟩
    simp [act, hj, State.prepare, hs]
  · refine ⟨_, .built hj, ?_⟩
    simp [act, hj, State.finishJob, hs]

/-- While some call has not answered, some move is possible that is not up to a caller. -/
theorem Run.progress (h : Run cfg (.fresh now store ttl) past s) (reply : Job → BuildReply)
    {st : Stage} (hi : s.calls[i]? = some st) (hst : ∀ answer, st ≠ .finished answer) :
    Moves cfg reply s := by
  generalize hr : s.rank i = r
  -- by induction on the rank: whoever is waited for has a smaller one
  induction r using Nat.strongRecOn generalizing i st with
  | ind r ih =>
    rcases h.canStep_or_waits ⟨st, hi, hst⟩ with hstep | ⟨j, hw⟩ | ⟨_, _, _, _, _, k, _, _, _, hk⟩
    · exact hstep.moves
    · obtain ⟨st', hj, hst'⟩ := (h.unfinished_of_waits hw).2
      exact ih (s.rank j) (hr ▸ h.rank_lt hw) hj hst' rfl
    · exact h.occupied.moves hk

end

end OnDemand.Engine
