import OnDemand.Proofs.Engine.Progress
import OnDemand.Proofs.Engine.Smooth
import OnDemand.Proofs.Engine.Work

/-!
# How smooth runs end

In a smooth run from an empty store no name is submitted twice and every batch is answered with all its
names stored, as long as no batch begins a wait that ends beyond what the clock can show
(`smooth_iff`). A run can go on smoothly until every call has answered, and does so after a bounded
number of moves.
-/

namespace OnDemand.Engine

open State FlightTable

section
variable {cfg : Settings} {payload : Name → ByteArray} {now : Moment} {store : Store}
  {ttl : Option Duration} {past : List (State × Action)} {s₀ s t : State} {a : Action} {i : Nat}
  {b : BatchStage} {next : BatchStage ⊕ BatchEnd} {names : List Name}

/-! ## What batches come to -/

theorem outcome?_endBatch (c : Claims) (e : BatchEnd) : outcome? (endBatch c e) = some e := by
  unfold endBatch
  split <;> rfl

theorem outcome?_followNext {b : Batch} {rest : List (Name × Nat)} {limit : Duration}
    (hrest : rest ≠ []) (hlimit : b.limits.compile = some limit)
    (hnow : Moment.after? s.now limit = none) :
    outcome? (s.followNext b rest) = some (.overflowed .deadline) := by
  obtain ⟨p, rest, rfl⟩ := List.exists_cons_of_ne_nil hrest
  simp only [followNext, hlimit, hnow]
  exact outcome?_endBatch _ _

theorem State.Overruns.outcome? (h : s.Overruns a) :
    s.outcome? cfg a = some (.overflowed .deadline) := by
  obtain ⟨i, b, rfl, hb, ho⟩ := h
  simp only [State.outcome?, hb, Option.bind_some]
  cases b with
  | claiming units limits rest c =>
    cases rest with
    | nil =>
      obtain ⟨hrest, limit, hlimit, hnow⟩ := ho
      exact outcome?_followNext hrest hlimit hnow
    | cons n rest => cases ho
  | checking b n rest =>
    obtain ⟨hrest, limit, hlimit, hnow⟩ := ho
    simp only [advanceBatch, Option.bind_some]
    split
    · exact outcome?_followNext hrest hlimit hnow
    · exact outcome?_followNext hrest hlimit hnow
  | _ => cases ho

theorem Run.outcome (h : Run cfg (.fresh now .empty ttl) past s)
    (hs : ∀ p ∈ past, Smooth payload p.1 p.2) (hno : ∀ p ∈ past, ¬ p.1.Overruns p.2)
    {p : State × Action} (hp : p ∈ past) {e : BatchEnd} (he : p.1.outcome? cfg p.2 = some e) :
    Fine s e := by
  obtain ⟨before, after, u, rfl, hbefore, hact, hafter⟩ := h.split hp
  obtain ⟨v, a⟩ := p
  have hsound : Sound payload v :=
    hbefore.sound (fun q hq => hs q (List.mem_append_left _ hq))
      (fun q hq => hno q (List.mem_append_left _ hq))
  cases a with
  | advance i =>
    simp only [State.outcome?, Option.bind_eq_some_iff] at he
    obtain ⟨b, hb, ⟨t, next⟩, hadvance, he⟩ := he
    have hfair := hbefore.fair hsound hb (batchMove_of_advance hadvance) (hs _ hp) (hno _ hp)
    obtain ⟨st, hact'⟩ := act_advance_of_batch cfg hb
    rw [hadvance] at hact'
    obtain rfl := Option.some.inj (hact.symm.trans hact')
    refine (hfair.fine he).forward (s := t.setCall i (st.resume next)) ?_
    exact hafter.extends hafter.start_visited
  | _ => cases he

/-! ## What a batch answers for -/

def BatchEnd.Concerns (names : List Name) (e : BatchEnd) : Prop :=
  ∀ r, e = .reported r → r.requested = names

def BatchStage.Concerns (names : List Name) : BatchStage → Prop
  | entering units _ => units.map (·.name) = names
  | claiming units _ _ _ => units.map (·.name) = names
  | following b _ _ => b.requested = names
  | checking b _ _ => b.requested = names
  | submitting b => b.requested = names
  | building b _ _ _ => b.requested = names
  | storing b _ _ => b.requested = names
  | releasing _ e => e.Concerns names
  | landing _ e => e.Concerns names

def Stage.Concerns (names : List Name) : Stage → Prop
  | batch b => b.Concerns names
  | finished (.batch e) => e.Concerns names
  | _ => False

theorem concerns_failed {e : CallError} : (BatchEnd.failed e).Concerns names := by
  intro r hr
  cases hr

theorem concerns_endBatch {c : Claims} {e : BatchEnd} (he : e.Concerns names) :
    Sum.elim (BatchStage.Concerns names) (BatchEnd.Concerns names) (endBatch c e) := by
  unfold endBatch
  split <;> exact he

theorem Onward.concerns {b : Batch} {rest : List (Name × Nat)} (h : Onward now b rest next)
    (hb : b.requested = names) : Sum.elim (BatchStage.Concerns names) (BatchEnd.Concerns names) next := by
  cases h with
  | submit => exact hb
  | wait => exact hb
  | overflow => exact concerns_endBatch fun r hr => (by cases hr)

theorem BatchMove.concerns (hm : BatchMove cfg s i a b t next) (hb : b.Concerns names) :
    Sum.elim (BatchStage.Concerns names) (BatchEnd.Concerns names) next := by
  cases hm with
  | claimed ho => exact ho.concerns hb
  | join _ ho => exact ho.concerns hb
  | takeOver _ ho => exact ho.concerns hb
  | idle => exact concerns_endBatch fun r hr => (by cases hr; exact hb)
  | keep => exact concerns_endBatch fun r hr => (by cases hr; exact hb)
  | fail => exact concerns_endBatch concerns_failed
  | conflict => exact concerns_endBatch concerns_failed
  | expireWait => exact concerns_endBatch concerns_failed
  | expireBuild => exact concerns_endBatch concerns_failed
  | _ => exact hb

theorem CallMove.concerns {st st' : Stage} (hm : CallMove cfg s i a st t st') (hst : st.Concerns names) :
    st'.Concerns names := by
  cases hm with
  | @own _ b _ next hbm =>
    have hnext := hbm.concerns hst
    rcases next with b' | e
    · exact hnext
    · exact hnext
  | _ => cases hst

theorem Run.concerns (h : Run cfg s₀ past s) {u : State} {units : List SourceUnit} {limits : Limits}
    (hu : (u, .call (.compile units limits)) ∈ past) :
    ∃ st, s.calls[u.calls.length]? = some st ∧ st.Concerns (units.map (·.name)) := by
  obtain ⟨before, after, v, -, -, hact, hafter⟩ := h.split hu
  refine hafter.invariant (P := fun w => ∃ st, w.calls[u.calls.length]? = some st ∧
    st.Concerns (units.map (·.name))) ?_ ?_
  · rintro w b w' ⟨st, hi, hst⟩ hstep
    rcases hstep.call_before hi with ⟨-, hi'⟩ | ⟨w'', st', hm, -, hi'⟩
    · exact ⟨st, hi', hst⟩
    · exact ⟨st', hi', hm.concerns hst⟩
  · obtain rfl : _ = v := by simpa [act] using hact
    exact ⟨(Request.compile units limits).stage, by simp, rfl⟩

/-! ## Smooth runs end well -/

/-- Every call has answered. -/
def State.Settled (s : State) : Prop :=
  ∀ (i : Nat) st, s.calls[i]? = some st → ∃ answer, st = .finished answer

/-- A call for these names is at work, or has answered that they were requested and has them all
stored. -/
def State.Serves (s : State) (i : Nat) (names : List Name) : Prop :=
  (∃ b, s.calls[i]? = some (.batch b)) ∨
    ∃ r, s.calls[i]? = some (.finished (.batch (.reported r))) ∧ r.requested = names ∧
      ∀ n ∈ names, s.store.contains n = true

def plainOutput (payload : Name → ByteArray) (units : List SourceUnit) : BuildOutput :=
  ⟨units.map fun u => .plain u.name (payload u.name), []⟩

theorem covers_plainOutput (units : List SourceUnit) :
    Covers payload units (plainOutput payload units) := by
  constructor
  · intro u hu
    exact ⟨_, List.mem_map.mpr ⟨u, hu, rfl⟩, rfl⟩
  · intro a ha
    obtain ⟨u, -, rfl⟩ := List.mem_map.mp ha
    rfl

theorem Run.serves (h : Run cfg (.fresh now .empty ttl) past s)
    (hs : ∀ p ∈ past, Smooth payload p.1 p.2) (hno : ∀ p ∈ past, ¬ p.1.Overruns p.2) {u : State}
    {units : List SourceUnit} {limits : Limits} (hu : (u, .call (.compile units limits)) ∈ past) :
    s.Serves u.calls.length (units.map (·.name)) := by
  obtain ⟨st, hi, hst⟩ := h.concerns hu
  cases st with
  | batch b => exact Or.inl ⟨b, hi⟩
  | finished answer =>
    cases answer with
    | batch e =>
      obtain ⟨r, rfl, hstored⟩ := (h.sound hs hno).answers hi
      have hr : r.requested = _ := hst r rfl
      rw [hr] at hstored
      exact Or.inr ⟨r, hi, hr, hstored⟩
    | _ => cases hst
  | _ => cases hst

theorem Run.smooth_move (h : Run cfg (.fresh now store ttl) past s) (hs : ¬ s.Settled) :
    ∃ a t, a.isInner = true ∧ Smooth payload s a ∧ s.act cfg a = some t := by
  simp only [State.Settled, not_forall, not_exists] at hs
  obtain ⟨i, st, hi, hst⟩ := hs
  obtain ⟨a, hdue, hact⟩ := h.progress (fun j => .output (plainOutput payload j.units)) hi hst
  obtain ⟨t, hact⟩ := Option.isSome_iff_exists.mp hact
  refine ⟨a, t, ?_, ?_, hact⟩
  · cases hdue <;> rfl
  · cases hdue with
    | built hj =>
      intro j' hj'
      obtain rfl := Option.some.inj (hj.symm.trans hj')
      exact ⟨_, rfl, covers_plainOutput _⟩
    | _ => trivial

/-- In a smooth run from an empty store, no name is submitted twice and every batch is answered with
all its names stored exactly if no batch begins a wait that ends beyond what the clock can show. Each
call for units is then answered with these, the run can always go on smoothly until every call has
answered, and it does not go on for ever without new calls. -/
theorem smooth_iff (h : Run cfg (.fresh now .empty ttl) past s)
    (hs : ∀ p ∈ past, Smooth payload p.1 p.2) :
    ((∀ p ∈ past, ¬ p.1.Overruns p.2) ↔
      s.submitted.Nodup ∧ ∀ p ∈ past, ∀ e, p.1.outcome? cfg p.2 = some e → Fine s e) ∧
    ((∀ p ∈ past, ¬ p.1.Overruns p.2) → ∀ u units limits,
      (u, .call (.compile units limits)) ∈ past → s.Serves u.calls.length (units.map (·.name))) ∧
    (¬ s.Settled → ∃ a t, a.isInner = true ∧ Smooth payload s a ∧ s.act cfg a = some t) ∧
    ∀ after t, Run cfg s after t → (∀ p ∈ after, p.2.isInner = true) → after.length ≤ s.work := by
  refine ⟨⟨fun hno => ⟨(h.sound hs hno).once, fun p hp e he => h.outcome hs hno hp he⟩, ?_⟩,
    fun hno u units limits hu => h.serves hs hno hu, h.smooth_move, ?_⟩
  · -- a batch that overruns ends on the overflow, which is no report
    rintro ⟨-, hfine⟩ p hp ho
    obtain ⟨r, he, -⟩ := hfine p hp _ ho.outcome?
    cases he
  · intro after t hafter hinner
    exact Nat.le_trans (Nat.le_add_right _ _) (hafter.length_le_work hinner)

end

/-! ## Two batches that share a name -/

/-- A batch of `x`, and one of `x` and `y` that waits for the first and compiles `y` alone. -/
def overlapping : List Action :=
  List.flatten
    [[.call (.compile [Sample.unit Sample.x] .unbounded),
        .call (.compile [Sample.unit Sample.x, Sample.unit Sample.y] .unbounded)],
      List.replicate 4 (.advance 0), List.replicate 4 (.advance 1),
      [.prepare 0, .built 0 (.output ⟨[.plain Sample.x .empty], []⟩)],
      List.replicate 4 (.advance 0), List.replicate 3 (.advance 1),
      [.prepare 1, .built 1 (.output ⟨[.plain Sample.y .empty], []⟩)],
      List.replicate 4 (.advance 1)]

theorem smooth_iff_overlapping :
    ∃ past s, Run Sample.settings (.fresh 0 .empty none) past s ∧
      (∀ p ∈ past, Smooth (fun _ => .empty) p.1 p.2) ∧ s.submitted = [Sample.x, Sample.y] ∧
      ((∀ p ∈ past, ¬ p.1.Overruns p.2) ↔ s.submitted.Nodup ∧
        ∀ p ∈ past, ∀ e, p.1.outcome? Sample.settings p.2 = some e → Fine s e) := by
  have hperform : ((State.fresh 0 .empty none).perform Sample.settings overlapping).any fun r =>
      (∀ p ∈ r.1, Smooth (fun _ => .empty) p.1 p.2) ∧ r.2.submitted = [Sample.x, Sample.y] := by
    decide +kernel
  obtain ⟨past, s, hrun, hsmooth, hsubmitted⟩ := Run.of_any hperform
  exact ⟨past, s, hrun, hsmooth, hsubmitted, (smooth_iff hrun hsmooth).1⟩

/-! ## A wait without an end -/

def longest : Limits :=
  ⟨none, some ⟨(2 ^ 64 - 1) * nanosPerSecond, by decide⟩⟩

/-- Two batches of `x`, the second with a limit that its wait for the first cannot have. -/
def overrunning : List Action :=
  List.flatten
    [[.call (.compile [Sample.unit Sample.x] .unbounded),
        .call (.compile [Sample.unit Sample.x] longest)],
      List.replicate 4 (.advance 0), List.replicate 3 (.advance 1)]

/-- Nothing goes wrong in the surroundings, and still a batch is not answered. -/
theorem smooth_batch_overflowed :
    ∃ past s, Run Sample.settings (.fresh 0 .empty none) past s ∧
      (∀ p ∈ past, Smooth (fun _ => .empty) p.1 p.2) ∧
      s.calls[1]? = some (.finished (.batch (.overflowed .deadline))) := by
  have hperform : ((State.fresh 0 .empty none).perform Sample.settings overrunning).any fun r =>
      (∀ p ∈ r.1, Smooth (fun _ => .empty) p.1 p.2) ∧
        r.2.calls[1]? = some (.finished (.batch (.overflowed .deadline))) := by
    decide +kernel
  exact Run.of_any hperform

end OnDemand.Engine
