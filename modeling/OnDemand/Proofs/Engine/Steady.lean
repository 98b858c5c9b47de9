import OnDemand.Proofs.Engine.Run

/-!
# The clock and the failures remembered

Only the passing of time moves the clock, and of the moves of the engine only two touch the failures
that are remembered: a lookup looks for one, and a lookup records one (`act_steady`).
-/

namespace OnDemand.Engine

open State

structure State.Steady (s t : State) : Prop where
  now : t.now = s.now
  failures : t.failures = s.failures

/-- The failure of a name that is found when one looks for it at a moment. -/
def State.remembered? (s : State) (m : Moment) (n : Name) : Option CallError :=
  s.failures.bind fun f => (f.lookup m n).1

/-- What is left of the failures when one has looked for a name at a moment. -/
def State.looked (s : State) (m : Moment) (n : Name) : Option Failures :=
  s.failures.map fun f => (f.lookup m n).2

variable {cfg : Settings} {s t : State} {a : Action} {i : Nat}

theorem State.Steady.refl (s : State) : s.Steady s := ⟨rfl, rfl⟩

theorem State.Steady.setCall (h : s.Steady t) (i : Nat) (st : Stage) : s.Steady (t.setCall i st) :=
  ⟨h.now, h.failures⟩

theorem steady_tellLookup (s : State) (cfg : Settings) (e : Event) :
    s.Steady (s.tellLookup cfg e) := by
  unfold tellLookup
  split <;> exact ⟨rfl, rfl⟩

theorem steady_read (s : State) (cfg : Settings) (n : Name) : s.Steady (s.read cfg n).1 := by
  unfold State.read
  split
  · exact steady_tellLookup s cfg _
  · exact .refl s

theorem now_record (s : State) (n : Name) (r : Resolution) : (s.record n r).1.now = s.now := by
  unfold State.record
  split
  · split <;> rfl
  · rfl

/-! ## Batches -/

theorem steady_submit (s : State) (cfg : Settings) (b : Batch) : s.Steady (s.submit cfg b).1 := by
  by_cases hs : b.submission.isEmpty = true
  · simp only [State.submit, if_pos hs]
    split <;> exact ⟨rfl, rfl⟩
  · simp only [State.submit, if_neg hs]
    exact ⟨rfl, rfl⟩

theorem steady_receive (s : State) (b : Batch) (submitted : List Name) (r : JobEnd) :
    s.Steady (s.receive b submitted r).1 := by
  unfold State.receive
  split <;> exact ⟨rfl, rfl⟩

theorem steady_keep (s : State) (b : Batch) (submitted : List Name) (o : BuildOutput) :
    s.Steady (s.keep b submitted o).1 := by
  unfold State.keep
  split <;> exact ⟨rfl, rfl⟩

theorem steady_advanceBatch {b : BatchStage} {r : State × (BatchStage ⊕ BatchEnd)}
    (h : s.advanceBatch cfg i b = some r) : s.Steady r.1 := by
  cases b with
  | entering units limits =>
    simp only [advanceBatch, Option.ite_none_right_eq_some] at h
    obtain ⟨-, h⟩ := h
    exact Option.some.inj h ▸ ⟨rfl, rfl⟩
  | claiming units limits rest c =>
    cases rest <;> exact Option.some.inj h ▸ ⟨rfl, rfl⟩
  | following b rest deadline =>
    cases rest with
    | nil => exact Option.some.inj h ▸ .refl s
    | cons p rest =>
      simp only [advanceBatch] at h
      split at h
      · cases h
      · exact Option.some.inj h ▸ .refl s
  | checking b n rest => exact Option.some.inj h ▸ .refl s
  | submitting b => exact Option.some.inj h ▸ steady_submit s cfg b
  | building b submitted k deadline =>
    simp only [advanceBatch] at h
    split at h
    · exact Option.some.inj h ▸ steady_receive s b submitted _
    · cases h
  | storing b submitted o => exact Option.some.inj h ▸ steady_keep s b submitted o
  | releasing g e =>
    simp only [advanceBatch, Option.ite_none_right_eq_some] at h
    obtain ⟨-, h⟩ := h
    exact Option.some.inj h ▸ ⟨rfl, rfl⟩
  | landing g e => exact Option.some.inj h ▸ ⟨rfl, rfl⟩

theorem steady_expireBatch {b : BatchStage} {r : State × (BatchStage ⊕ BatchEnd)}
    (h : s.expireBatch b = some r) : s.Steady r.1 := by
  unfold expireBatch at h
  split at h
  · split at h
    · simp only [Option.ite_none_right_eq_some] at h
      exact Option.some.inj h.2 ▸ ⟨rfl, rfl⟩
    · cases h
  · split at h
    · cases h
    · simp only [Option.ite_none_right_eq_some] at h
      exact Option.some.inj h.2 ▸ ⟨rfl, rfl⟩
    · cases h
  · cases h

/-! ## Calls -/

def Stage.Remembers : Stage → Prop
  | remembering _ _ => True
  | recording _ _ _ => True
  | _ => False

theorem steady_claimLookup (s : State) (n : Name) (limits : Limits) :
    s.Steady (s.claimLookup n limits).1 := by
  simp only [claimLookup]
  split
  · cases limits.total? with
    | none => exact ⟨rfl, rfl⟩
    | some w =>
      cases w with
      | none => exact ⟨rfl, rfl⟩
      | some wait =>
        simp only
        split <;> exact ⟨rfl, rfl⟩
  · exact ⟨rfl, rfl⟩
  · exact ⟨rfl, rfl⟩

theorem steady_advance {st : Stage} {r : State × Stage} (h : s.advance cfg i st = some r)
    (hst : ¬ st.Remembers) : s.Steady r.1 := by
  cases st with
  | recalling n => exact Option.some.inj h ▸ steady_read s cfg n
  | looking n limits =>
    have hread := steady_read s cfg n
    simp only [State.advance] at h
    split at h
    · rename_i hr
      rw [hr] at hread
      exact Option.some.inj h ▸ hread
    · rename_i hr
      rw [hr] at hread
      exact Option.some.inj h ▸ hread
  | missed n limits => exact Option.some.inj h ▸ steady_tellLookup s cfg _
  | remembering => exact absurd trivial hst
  | claiming n limits => exact Option.some.inj h ▸ steady_claimLookup s n limits
  | rereading n => exact Option.some.inj h ▸ steady_read s cfg n
  | following n f timeout deadline =>
    simp only [State.advance] at h
    split at h
    · exact Option.some.inj h ▸ .refl s
    · exact Option.some.inj h ▸ .refl s
    · cases h
  | departing n limits g => exact Option.some.inj h ▸ ⟨rfl, rfl⟩
  | fetching => cases h
  | compiling n g b =>
    simp only [State.advance, Option.map_eq_some_iff] at h
    obtain ⟨r', hb, rfl⟩ := h
    exact steady_advanceBatch hb
  | rechecking n g => exact Option.some.inj h ▸ steady_read s cfg n
  | recording => exact absurd trivial hst
  | releasing g e => exact Option.some.inj h ▸ ⟨rfl, rfl⟩
  | landing g e => exact Option.some.inj h ▸ ⟨rfl, rfl⟩
  | batch b =>
    simp only [State.advance, Option.map_eq_some_iff] at h
    obtain ⟨r', hb, rfl⟩ := h
    exact steady_advanceBatch hb
  | finished => cases h

theorem steady_expire {st : Stage} {r : State × Stage} (h : s.expire st = some r) :
    s.Steady r.1 := by
  unfold State.expire at h
  split at h
  · split at h
    · simp only [Option.ite_none_right_eq_some] at h
      exact Option.some.inj h.2 ▸ ⟨rfl, rfl⟩
    · cases h
  · split at h
    · simp only [Option.ite_none_right_eq_some] at h
      exact Option.some.inj h.2 ▸ ⟨rfl, rfl⟩
    · cases h
  · obtain ⟨r', hb, rfl⟩ := Option.map_eq_some_iff.mp h
    exact steady_expireBatch hb
  · obtain ⟨r', hb, rfl⟩ := Option.map_eq_some_iff.mp h
    exact steady_expireBatch hb
  · cases h

theorem steady_receiveFetch {st : Stage} {reply : FetchReply} {r : State × Stage}
    (h : s.receiveFetch cfg reply st = some r) : s.Steady r.1 := by
  unfold State.receiveFetch at h
  split at h
  · cases reply <;> exact Option.some.inj h ▸ ⟨rfl, rfl⟩
  · cases h

/-! ## Moves -/

/-- A move of the engine leaves the clock and the failures remembered alone, unless a lookup looks for
one or records one. -/
theorem act_steady (h : s.act cfg a = some t) (ha : a.isInner = true)
    (hst : ∀ (i : Nat) st, a = .advance i → s.calls[i]? = some st → ¬ st.Remembers) : s.Steady t := by
  cases a with
  | advance i =>
    obtain ⟨st, hi, hm⟩ := Option.bind_eq_some_iff.mp h
    obtain ⟨r, hr, rfl⟩ := Option.map_eq_some_iff.mp hm
    exact (steady_advance hr (hst i st rfl hi)).setCall i r.2
  | expire i =>
    obtain ⟨st, hi, hm⟩ := Option.bind_eq_some_iff.mp h
    obtain ⟨r, hr, rfl⟩ := Option.map_eq_some_iff.mp hm
    exact (steady_expire hr).setCall i r.2
  | fetched i reply =>
    obtain ⟨st, hi, hm⟩ := Option.bind_eq_some_iff.mp h
    obtain ⟨r, hr, rfl⟩ := Option.map_eq_some_iff.mp hm
    exact (steady_receiveFetch hr).setCall i r.2
  -- jobs know neither the clock nor what is remembered
  | prepare k =>
    obtain ⟨j, -, hp⟩ := Option.bind_eq_some_iff.mp h
    unfold State.prepare at hp
    split at hp
    · simp only [Option.ite_none_right_eq_some] at hp
      exact Option.some.inj hp.2 ▸ ⟨rfl, rfl⟩
    · exact Option.some.inj hp ▸ ⟨rfl, rfl⟩
    · cases hp
  | built k reply =>
    obtain ⟨j, -, hf⟩ := Option.bind_eq_some_iff.mp h
    unfold State.finishJob at hf
    split at hf
    · exact Option.some.inj hf ▸ ⟨rfl, rfl⟩
    · cases hf
  | founder k =>
    obtain ⟨j, -, hf⟩ := Option.bind_eq_some_iff.mp h
    obtain ⟨-, hf⟩ := Option.ite_none_right_eq_some.mp hf
    exact Option.some.inj hf ▸ ⟨rfl, rfl⟩
  | _ => cases ha

theorem CallMove.looks {n : Name} {limits : Limits} {st' : Stage}
    (h : CallMove cfg s i a (.remembering n limits) t st') :
    a = .advance i ∧ t.resolving = s.resolving ∧ t.failures = s.looked s.now n ∧
      (s.remembered? s.now n = none ∧ st' = .claiming n limits ∨
        ∃ e, s.remembered? s.now n = some e ∧ st' = resolved (.failed e)) := by
  cases h with
  | forgetful hf => simp [State.looked, State.remembered?, hf]
  | forgotten hf hl => simp [State.looked, State.remembered?, hf, hl]
  | remembered hf hl => simp [State.looked, State.remembered?, State.tell, hf, hl]

theorem now_advance_of_remembers {st : Stage} {r : State × Stage} (h : s.advance cfg i st = some r)
    (hst : st.Remembers) : r.1.now = s.now := by
  cases st with
  | remembering n limits =>
    simp only [State.advance] at h
    split at h
    · exact Option.some.inj h ▸ rfl
    · split at h <;> exact Option.some.inj h ▸ rfl
  | recording n g r' => exact Option.some.inj h ▸ now_record s n r'
  | _ => exact hst.elim

theorem act_now (h : s.act cfg a = some t) (ha : a.isInner = true) : t.now = s.now := by
  by_cases hst : ∀ (i : Nat) st, a = .advance i → s.calls[i]? = some st → ¬ st.Remembers
  · exact (act_steady h ha hst).now
  · simp only [not_forall, not_not] at hst
    obtain ⟨i, st, rfl, hi, hr⟩ := hst
    rw [act, hi, Option.bind_some, Option.map_eq_some_iff] at h
    obtain ⟨r, hadvance, rfl⟩ := h
    exact now_advance_of_remembers hadvance hr

end OnDemand.Engine
