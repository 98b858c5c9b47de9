import OnDemand.Proofs.Engine.Settlement
import OnDemand.Proofs.Engine.Steady
import OnDemand.Proofs.Failures

/-!
# Moments the clock can show

A call that asks the clock for a moment it cannot show breaks off. Where the clock can show the end
of every wait that the callers' limits allow, the one such moment left is the expiry of a failure
that is remembered, so a run breaks a call off exactly when a lookup records a failure for longer than
the clock goes (`Run.broken_iff`).
-/

namespace OnDemand

/-- The clock can show the end of each wait that the limits allow. -/
structure Limits.Shown (l : Limits) (now : Moment) : Prop where
  total : ∃ wait, l.total? = some wait ∧ ∀ d ∈ wait, Moment.after? now d ≠ none
  fetch : ∀ d ∈ l.fetch, Moment.after? now d ≠ none
  compile : ∀ d ∈ l.compile, Moment.after? now d ≠ none

theorem Moment.after?_mono {t now : Moment} {d : Duration} (hle : t ≤ now)
    (h : Moment.after? now d ≠ none) : Moment.after? t d ≠ none := by
  unfold Moment.after? at *
  by_cases hnow : now + d.nanos < 1 <<< 63 * nanosPerSecond
  · rw [if_pos (Nat.lt_of_le_of_lt (Nat.add_le_add_right hle _) hnow)]
    simp
  · rw [if_neg hnow] at h
    exact absurd rfl h

theorem Limits.Shown.mono {l : Limits} {t now : Moment} (h : l.Shown now) (hle : t ≤ now) :
    l.Shown t := by
  obtain ⟨wait, htotal, hwait⟩ := h.total
  exact ⟨⟨wait, htotal, fun d hd => Moment.after?_mono hle (hwait d hd)⟩,
    fun d hd => Moment.after?_mono hle (h.fetch d hd),
    fun d hd => Moment.after?_mono hle (h.compile d hd)⟩

namespace Engine

open State

/-! ## The limits a call works under -/

def BatchStage.limits? : BatchStage → Option Limits
  | entering _ l => some l
  | claiming _ l _ _ => some l
  | following b _ _ => some b.limits
  | checking b _ _ => some b.limits
  | submitting b => some b.limits
  | building b _ _ _ => some b.limits
  | storing b _ _ => some b.limits
  | _ => none

def Stage.limits? : Stage → Option Limits
  | looking _ l => some l
  | missed _ l => some l
  | remembering _ l => some l
  | claiming _ l => some l
  | departing _ l _ => some l
  | fetching _ l _ _ => some l
  | compiling _ _ b => b.limits?
  | batch b => b.limits?
  | _ => none

section
variable {cfg : Settings} {s₀ s t : State} {a : Action} {i : Nat} {b : BatchStage} {l : Limits}
  {past : List (State × Action)} {next : BatchStage ⊕ BatchEnd} {st st' : Stage}

theorem endBatch_limits (c : Claims) (e : BatchEnd) :
    (endBatch c e).getLeft?.bind BatchStage.limits? = none := by
  unfold endBatch
  split <;> rfl

theorem Onward.limits {now : Moment} {b : Batch} {rest : List (Name × Nat)}
    (h : Onward now b rest next) (hl : next.getLeft?.bind BatchStage.limits? = some l) :
    b.limits = l := by
  cases h with
  | submit => exact Option.some.inj hl
  | wait => exact Option.some.inj hl
  | overflow =>
    rw [endBatch_limits] at hl
    cases hl

theorem BatchMove.limits (h : BatchMove cfg s i a b t next)
    (hl : next.getLeft?.bind BatchStage.limits? = some l) : b.limits? = some l := by
  -- a batch that goes on keeps its limits, and one that ends has none
  cases h with
  | claimed ho => exact congrArg some (ho.limits hl)
  | join _ ho => exact congrArg some (ho.limits hl)
  | takeOver _ ho => exact congrArg some (ho.limits hl)
  | idle =>
    rw [endBatch_limits] at hl
    cases hl
  | keep =>
    rw [endBatch_limits] at hl
    cases hl
  | fail =>
    rw [endBatch_limits] at hl
    cases hl
  | conflict =>
    rw [endBatch_limits] at hl
    cases hl
  | expireWait =>
    rw [endBatch_limits] at hl
    cases hl
  | expireBuild =>
    rw [endBatch_limits] at hl
    cases hl
  | _ => exact hl

theorem limits_afterBatch (n : Name) (g : Guard) :
    (afterBatch n g next).limits? = next.getLeft?.bind BatchStage.limits? := by
  rcases next with b | e
  · rfl
  · cases e <;> rfl

theorem limits_afterOwnBatch :
    (afterOwnBatch next).limits? = next.getLeft?.bind BatchStage.limits? := by
  rcases next with b | e <;> rfl

theorem CallMove.limits (h : CallMove cfg s i a st t st') (hl : st'.limits? = some l) :
    st.limits? = some l := by
  cases h with
  | compile hb =>
    rw [limits_afterBatch] at hl
    exact hb.limits hl
  | own hb =>
    rw [limits_afterOwnBatch] at hl
    exact hb.limits hl
  | fetched => exact hl
  | _ => first | exact hl | cases hl

theorem Run.limits (h : Run cfg s₀ past s) (h₀ : s₀.calls = [])
    (hl : ∀ p ∈ past, ∀ l' ∈ p.2.limits?, l' = l) {l' : Limits} (hi : s.calls[i]? = some st)
    (hst : st.limits? = some l') : l' = l := by
  obtain ⟨r, ⟨u, hu, -⟩, hr⟩ := h.calls (P := fun _ r st => ∀ l', st.limits? = some l' →
      (Action.call r).limits? = some l') h₀
    (fun r l' hr => by cases r <;> exact hr)
    (fun _ _ _ _ hm hP l' hl' => hP l' (hm.limits hl')) (fun _ hP => hP) hi
  exact hl _ hu l' (hr l' hst)

/-! ## Calls that break off -/

def BatchEnd.overflow? : BatchEnd → Option Overflow
  | overflowed o => some o
  | _ => none

def LookupEnd.overflow? : LookupEnd → Option Overflow
  | overflowed o => some o
  | _ => none

def Answer.overflow? : Answer → Option Overflow
  | lookup e => e.overflow?
  | batch e => e.overflow?
  | stored _ => none

def BatchStage.overflow? : BatchStage → Option Overflow
  | releasing _ e => e.overflow?
  | landing _ e => e.overflow?
  | _ => none

/-- The moment a call could not be told, once it has broken off for want of it. -/
def Stage.overflow? : Stage → Option Overflow
  | compiling _ _ b => b.overflow?
  | releasing _ e => e.overflow?
  | landing _ e => e.overflow?
  | batch b => b.overflow?
  | finished a => a.overflow?
  | _ => none

def nextOverflow? (next : BatchStage ⊕ BatchEnd) : Option Overflow :=
  next.elim BatchStage.overflow? BatchEnd.overflow?

theorem overflow_endBatch (c : Claims) (e : BatchEnd) :
    nextOverflow? (endBatch c e) = e.overflow? := by
  unfold endBatch
  split <;> rfl

theorem overflow_afterBatch (n : Name) (g : Guard) :
    (afterBatch n g next).overflow? = nextOverflow? next := by
  rcases next with b | e
  · rfl
  · cases e <;> rfl

theorem overflow_afterOwnBatch : (afterOwnBatch next).overflow? = nextOverflow? next := by
  rcases next with b | e <;> rfl

theorem Onward.unbroken {now : Moment} {b : Batch} {rest : List (Name × Nat)}
    (h : Onward now b rest next) (hshown : b.limits.Shown now) : nextOverflow? next = none := by
  cases h with
  | submit => rfl
  | wait => rfl
  | overflow p rest hlimit hnow => exact absurd hnow (hshown.compile _ hlimit)

theorem BatchMove.unbroken (h : BatchMove cfg s i a b t next)
    (hshown : ∀ l, b.limits? = some l → l.Shown s.now) : nextOverflow? next = b.overflow? := by
  cases h with
  | claimed ho => exact ho.unbroken (hshown _ rfl)
  | join _ ho => exact ho.unbroken (hshown _ rfl)
  | takeOver _ ho => exact ho.unbroken (hshown _ rfl)
  | idle => exact overflow_endBatch _ _
  | keep => exact overflow_endBatch _ _
  | fail => exact overflow_endBatch _ _
  | conflict => exact overflow_endBatch _ _
  | expireWait => exact overflow_endBatch _ _
  | expireBuild => exact overflow_endBatch _ _
  | _ => rfl

theorem claimLookup_overflow (n : Name) (hshown : l.Shown s.now) :
    (s.claimLookup n l).2.overflow? = none := by
  obtain ⟨wait, htotal, hwait⟩ := hshown.total
  unfold claimLookup
  simp only [htotal]
  split
  · cases wait with
    | none => rfl
    | some d =>
      simp only
      split
      · rfl
      · rename_i hnone
        exact absurd hnone (hwait d rfl)
  · rfl
  · rfl

theorem record_overflow {n : Name} {g : Guard} {r : Resolution}
    (hi : s.calls[i]? = some (.recording n g r)) :
    (s.record n r).2.overflow? ≠ none ↔ s.Outlasts (.advance i) := by
  constructor
  · intro h
    by_contra hno
    rw [record_lands hi hno] at h
    exact h rfl
  · rintro ⟨k, e, f, ha, hview, he, hf, hnow⟩
    obtain rfl := Action.advance.inj ha
    rw [view_of_call hi] at hview
    cases r with
    | failed e' =>
      obtain rfl := Option.some.inj hview
      simp [State.record, hf, Failures.record, he, hnow, LookupEnd.overflow?]
    | _ => cases hview

theorem stage_of_claim {n : Name} (h : s.act cfg (.advance i) = some t)
    (hi : s.calls[i]? = some (.claiming n l)) (hi' : t.calls[i]? = some st') :
    st' = (s.claimLookup n l).2 := by
  rw [act, hi, Option.bind_some] at h
  obtain rfl := Option.some.inj h
  have hm : CallMove cfg s i (.advance i) (.claiming n l) (s.claimLookup n l).1
      (s.claimLookup n l).2 := callMove_claim n l
  exact Option.some.inj (hi'.symm.trans (hm.placed hi))

theorem CallMove.unbroken (h : CallMove cfg s i a st u st') (hact : s.act cfg a = some t)
    (hi : s.calls[i]? = some st) (hi' : t.calls[i]? = some st')
    (hshown : ∀ l, st.limits? = some l → l.Shown s.now) (hno : ¬ s.Outlasts a) :
    st'.overflow? = st.overflow? := by
  cases h with
  | followOverflow =>
    rw [stage_of_claim hact hi hi']
    exact claimLookup_overflow _ (hshown _ rfl)
  | record =>
    by_contra hne
    exact hno ((record_overflow hi).mp hne)
  | compile hb =>
    rw [overflow_afterBatch]
    exact hb.unbroken hshown
  | own hb =>
    rw [overflow_afterOwnBatch]
    exact hb.unbroken hshown
  | _ => rfl

theorem BatchMove.broken (h : BatchMove cfg s i a b t next) {o : Overflow}
    (ho : b.overflow? = some o) : nextOverflow? next = some o := by
  cases h with
  | release => exact ho
  | land => exact ho
  | _ => cases ho

theorem CallMove.broken (h : CallMove cfg s i a st t st') {o : Overflow}
    (ho : st.overflow? = some o) : st'.overflow? = some o := by
  cases h with
  | compile hb =>
    rw [overflow_afterBatch]
    exact hb.broken ho
  | own hb =>
    rw [overflow_afterOwnBatch]
    exact hb.broken ho
  | release => exact ho
  | land => exact ho
  | _ => cases ho

theorem Step.broken (h : Step cfg s (.advance i) t) (hout : s.Outlasts (.advance i)) :
    ∃ o, t.view Stage.overflow? i = some o := by
  obtain ⟨k, e, f, ha, hview, -⟩ := id hout
  obtain rfl := Action.advance.inj ha
  obtain ⟨st, hi, he⟩ := view_eq_some.mp hview
  rcases h.call_before hi with ⟨hno, -⟩ | ⟨u, st', hm, -, hi'⟩
  · exact absurd rfl hno
  · cases hm with
    | record =>
      obtain ⟨o, ho⟩ := Option.ne_none_iff_exists'.mp ((record_overflow hi).mpr hout)
      exact ⟨o, view_eq_some.mpr ⟨_, hi', ho⟩⟩
    | _ => cases he

theorem now_le_of_act (h : s.act cfg a = some t) : s.now ≤ t.now := by
  by_cases ha : a.isInner = true
  · exact Nat.le_of_eq (act_now h ha).symm
  · cases a with
    | put a' =>
      simp only [act] at h
      split at h <;> obtain rfl := Option.some.inj h <;> exact Nat.le_refl _
    | putAll as =>
      simp only [act] at h
      split at h <;> obtain rfl := Option.some.inj h <;> exact Nat.le_refl _
    | elapse nanos =>
      obtain rfl := Option.some.inj h
      exact Nat.le_add_right _ _
    | call r =>
      obtain rfl := Option.some.inj h
      exact Nat.le_refl _
    | forget n =>
      obtain rfl := Option.some.inj h
      exact Nat.le_refl _
    | clearFailures =>
      obtain rfl := Option.some.inj h
      exact Nat.le_refl _
    | _ => exact absurd rfl ha

theorem ttl_record (n : Name) (r : Resolution) :
    (s.record n r).1.failures.map (·.ttl) = s.failures.map (·.ttl) := by
  unfold State.record
  split
  · rename_i f e hf
    have httl := Failures.ttl_record f s.now n e
    split <;> simp_all
  · rfl

theorem ttl_of_act (h : s.act cfg a = some t) :
    t.failures.map (·.ttl) = s.failures.map (·.ttl) := by
  by_cases ha : a.isInner = true
  -- inside the engine two stages look at what is remembered
  · by_cases hst : ∀ (i : Nat) st, a = .advance i → s.calls[i]? = some st → ¬ st.Remembers
    · rw [(act_steady h ha hst).failures]
    · simp only [not_forall, not_not] at hst
      obtain ⟨i, st, rfl, hi, hr⟩ := hst
      rw [act, hi, Option.bind_some, Option.map_eq_some_iff] at h
      obtain ⟨r, hadvance, rfl⟩ := h
      cases st with
      | remembering n l =>
        have hlooked := (callMove_of_advance hadvance).looks.2.2.1
        rw [moveCall, setCall, hlooked, looked, Option.map_map]
        exact congrFun (congrArg Option.map (funext fun f => Failures.ttl_lookup f s.now n)) _
      | recording n g r' =>
        obtain rfl := Option.some.inj hadvance
        exact ttl_record n r'
      | _ => exact hr.elim
  -- a host changes what is remembered, not for how long
  · cases a with
    | put a' =>
      simp only [act] at h
      split at h <;> exact Option.some.inj h ▸ rfl
    | putAll as =>
      simp only [act] at h
      split at h <;> exact Option.some.inj h ▸ rfl
    | forget n =>
      obtain rfl := Option.some.inj h
      simp [Function.comp_def, Failures.forget, Failures.erase]
    | clearFailures =>
      obtain rfl := Option.some.inj h
      simp [Function.comp_def, Failures.clear]
    | call r => exact Option.some.inj h ▸ rfl
    | elapse nanos => exact Option.some.inj h ▸ rfl
    | _ => exact absurd rfl ha

theorem Run.ttl (h : Run cfg s₀ past s) : s.failures.map (·.ttl) = s₀.failures.map (·.ttl) := by
  induction h with
  | start => rfl
  | step _ ha ih => exact (ttl_of_act ha).trans ih

theorem Run.now_le (h : Run cfg s₀ past s) : s₀.now ≤ s.now := by
  induction h with
  | start => exact Nat.le_refl _
  | step _ ha ih => exact Nat.le_trans ih (now_le_of_act ha)

theorem Run.broken_of_outlasts {u : State} (h : Run cfg s₀ past s) (hu : (u, .advance i) ∈ past)
    (hout : u.Outlasts (.advance i)) : ∃ o, s.view Stage.overflow? i = some o := by
  obtain ⟨before, after, t, -, -, hact, hs⟩ := h.split hu
  refine hs.invariant (P := fun s => ∃ o, s.view Stage.overflow? i = some o) ?_
    ((step_of_act hact).broken hout)
  rintro s a t ⟨o, hview⟩ hst
  obtain ⟨st, hi, ho⟩ := view_eq_some.mp hview
  rcases hst.call_before hi with ⟨-, hi'⟩ | ⟨v, st', hm, -, hi'⟩
  · exact ⟨o, view_eq_some.mpr ⟨st, hi', ho⟩⟩
  · exact ⟨o, view_eq_some.mpr ⟨st', hi', hm.broken ho⟩⟩

theorem Run.outlasts_of_broken (h : Run cfg s₀ past s) (h₀ : s₀.calls = [])
    (hl : ∀ p ∈ past, ∀ l' ∈ p.2.limits?, l' = l) (hshown : l.Shown s.now) {o : Overflow}
    (ho : s.view Stage.overflow? i = some o) :
    ∃ u, (u, .advance i) ∈ past ∧ u.Outlasts (.advance i) := by
  induction h with
  | start => simp [view, h₀] at ho
  | @step past s a t h hact ih =>
    have hl' := fun p hp => hl p (List.mem_append_left _ hp)
    have hshown' := hshown.mono (now_le_of_act hact)
    have hkeep : s.view Stage.overflow? i = some o →
        ∃ u, (u, .advance i) ∈ past ++ [(s, a)] ∧ u.Outlasts (.advance i) := by
      intro hs
      obtain ⟨u, hu, hout⟩ := ih hl' hshown' hs
      exact ⟨u, List.mem_append_left _ hu, hout⟩
    obtain ⟨st', hi', hst'⟩ := view_eq_some.mp ho
    -- broken off before, only just asked for, or broken off by this move
    rcases (step_of_act hact).call_after hi' with hi | ⟨-, r, rfl, rfl⟩ | ⟨st, u, hi, hm, -⟩
    · exact hkeep (view_eq_some.mpr ⟨st', hi, hst'⟩)
    · cases r <;> cases hst'
    · by_cases hno : s.Outlasts a
      · obtain ⟨k, -, -, rfl, -⟩ := id hno
        obtain rfl := Option.some.inj hm.mover
        exact ⟨s, by simp, hno⟩
      -- the clock can show the end of each wait, so no wait has broken it off
      · have hwait : ∀ l', st.limits? = some l' → l'.Shown s.now := by
          intro l' hst
          rw [h.limits h₀ hl' hi hst]
          exact hshown'
        rw [hm.unbroken hact hi hi' hwait hno] at hst'
        exact hkeep (view_eq_some.mpr ⟨st, hi, hst'⟩)

/-- Where the clock can show the ends of all waits, a call has broken off exactly when it has recorded
a failure for longer than the clock goes. -/
theorem Run.broken_iff (h : Run cfg s₀ past s) (h₀ : s₀.calls = [])
    (hl : ∀ p ∈ past, ∀ l' ∈ p.2.limits?, l' = l) (hshown : l.Shown s.now) :
    (∃ o, s.view Stage.overflow? i = some o) ↔
      ∃ u, (u, .advance i) ∈ past ∧ u.Outlasts (.advance i) := by
  constructor
  · rintro ⟨o, ho⟩
    exact h.outlasts_of_broken h₀ hl hshown ho
  · rintro ⟨u, hu, hout⟩
    exact h.broken_of_outlasts hu hout

theorem Run.not_outlasts {now : Moment} {store : Store} {ttl : Option Duration} {u : State}
    (h : Run cfg (.fresh now store ttl) past s) (httl : ∀ d ∈ ttl, Moment.after? s.now d ≠ none)
    (hu : (u, a) ∈ past) : ¬ u.Outlasts a := by
  rintro ⟨k, e, f, -, -, -, hf, hnow⟩
  obtain ⟨before, after, t, -, hb, hact, hs⟩ := h.split hu
  have hd : ttl = some f.ttl := by
    have := hb.ttl
    rw [hf] at this
    cases ttl with
    | none => cases this
    | some d => exact congrArg some (Option.some.inj this).symm
  exact Moment.after?_mono (Nat.le_trans (now_le_of_act hact) hs.now_le) (httl f.ttl hd) hnow

/-! ## A lookup that breaks off -/

structure State.Finds (s : State) (now : Moment) (store : Store) (f : Failures)
    (flights : FlightTable Resolution) : Prop where
  now : s.now = now
  store : s.store = store
  failures : s.failures = some f
  resolving : s.resolving = flights

def Comes (cfg : Settings) (l : Limits) (s₀ : State) (now : Moment) (store : Store) (f : Failures)
    (flights : FlightTable Resolution) (st : Stage) : Prop :=
  ∃ past s, Run cfg s₀ past s ∧ (∀ p ∈ past, ∀ l' ∈ p.2.limits?, l' = l) ∧ s.calls = [st] ∧
    s.Finds now store f flights

section
variable {now : Moment} {store : Store} {f : Failures} {flights flights' : FlightTable Resolution}
  {n : Name} {e : Event}

theorem State.Finds.tell (h : s.Finds now store f flights) :
    (s.tell e).Finds now store f flights :=
  ⟨h.now, h.store, h.failures, h.resolving⟩

theorem State.Finds.tellLookup (h : s.Finds now store f flights) :
    (s.tellLookup cfg e).Finds now store f flights := by
  unfold State.tellLookup
  split
  · exact h.tell
  · exact h

theorem Comes.step (h : Comes cfg l s₀ now store f flights st) (ha : a.limits? = none)
    (hmove : ∀ s : State, s.calls = [st] → s.Finds now store f flights →
      ∃ u : State, s.act cfg a = some (u.setCall 0 st') ∧ u.calls = s.calls ∧ u.Finds now store f flights') :
    Comes cfg l s₀ now store f flights' st' := by
  obtain ⟨past, s, hrun, hl, hcalls, hs⟩ := h
  obtain ⟨u, hact, hu, hfinds⟩ := hmove s hcalls hs
  refine ⟨_, _, hrun.step hact, ?_, ?_, hfinds.now, hfinds.store, hfinds.failures, hfinds.resolving⟩
  · intro p hp l' hl'
    rcases List.mem_append.mp hp with hp | hp
    · exact hl p hp l' hl'
    · obtain rfl := List.mem_singleton.mp hp
      rw [ha] at hl'
      cases hl'
  · rw [setCall, hu, hcalls]
    rfl

theorem Comes.advance (h : Comes cfg l s₀ now store f flights st)
    (hmove : ∀ s : State, s.Finds now store f flights →
      ∃ u : State, s.advance cfg 0 st = some (u, st') ∧ u.calls = s.calls ∧ u.Finds now store f flights') :
    Comes cfg l s₀ now store f flights' st' := by
  refine h.step (a := .advance 0) rfl fun s hcalls hs => ?_
  obtain ⟨u, hu, hrest⟩ := hmove s hs
  refine ⟨u, ?_, hrest⟩
  rw [act, hcalls, List.getElem?_cons_zero, Option.bind_some, hu]
  rfl

theorem Comes.looking {nanos : Nat} {ttl : Duration} :
    Comes cfg l (.fresh now store (some ttl)) (now + nanos) store (.empty ttl) .empty
      (.looking n l) := by
  have helapse : (State.fresh now store (some ttl)).act cfg (.elapse nanos) =
      some (State.fresh (now + nanos) store (some ttl)) := rfl
  have hcall : (State.fresh (now + nanos) store (some ttl)).act cfg (.call (.resolve n l)) =
      some { State.fresh (now + nanos) store (some ttl) with calls := [.looking n l] } := rfl
  refine ⟨_, _, (Run.single helapse).step hcall, ?_, rfl, rfl, rfl, rfl, rfl⟩
  simp [Action.limits?, eq_comm]

theorem claimLookup_free (hs : s.resolving = .empty) (hstore : s.store.get? n = none) :
    s.claimLookup n l =
      ({ s with resolving := ⟨[(n, 0)], [.pending]⟩ }, .departing n l ⟨0, [n]⟩) := by
  have hclaim : s.resolving.claimBatch s.store.contains [n] =
      (⟨[(n, 0)], [.pending]⟩, ⟨0, [], [], [n]⟩) := by
    have hcontains : s.store.contains n = false := by
      rw [Store.contains, hstore]
      rfl
    rw [hs]
    simp [FlightTable.claimBatch, FlightTable.claimNames, FlightTable.claimName, FlightTable.begin,
      FlightTable.empty, FlightTable.flightOf?, Name.distinct, Claims.start, hcontains]
  unfold claimLookup
  rw [hclaim]
  rfl

variable {ttl : Duration} (hremote : cfg.isRemote n = true) (hstore : store.get? n = none)
include hremote hstore

theorem Comes.recording (h : Comes cfg l s₀ now store (.empty ttl) .empty (.looking n l)) :
    Comes cfg l s₀ now store (.empty ttl) ⟨[(n, 0)], [.pending]⟩ (.recording n ⟨0, [n]⟩
      (.failed (.resolution n ("not found in " ++ cfg.repository ++ " repository")))) := by
  -- the lookup on its own, stage by stage
  have hmissed : Comes cfg l s₀ now store (.empty ttl) .empty (.missed n l) := by
    refine h.advance fun s hs => ⟨s, ?_, rfl, hs⟩
    rw [State.advance, State.read, hs.store, hstore]
  have hremembering : Comes cfg l s₀ now store (.empty ttl) .empty (.remembering n l) := by
    refine hmissed.advance fun s hs => ⟨s.tellLookup cfg (.cacheMiss n true), ?_,
      (quiet_tellLookup s cfg _).calls, hs.tellLookup⟩
    rw [State.advance, hremote, if_pos rfl]
  have hclaiming : Comes cfg l s₀ now store (.empty ttl) .empty (.claiming n l) := by
    refine hremembering.advance fun s hs => ⟨s, ?_, rfl, hs⟩
    have hfailures := hs.failures
    cases s
    cases hfailures
    rfl
  have hdeparting : Comes cfg l s₀ now store (.empty ttl) ⟨[(n, 0)], [.pending]⟩
      (.departing n l ⟨0, [n]⟩) := by
    refine hclaiming.advance fun s hs => ⟨{ s with resolving := ⟨[(n, 0)], [.pending]⟩ }, ?_, rfl,
      hs.now, hs.store, hs.failures, rfl⟩
    rw [State.advance, claimLookup_free hs.resolving (hs.store ▸ hstore)]
  have hfetching : Comes cfg l s₀ now store (.empty ttl) ⟨[(n, 0)], [.pending]⟩
      (.fetching n l ⟨0, [n]⟩ (l.fetch.bind (Moment.after? now))) := by
    refine hdeparting.advance fun s hs =>
      ⟨s.tell (.fetchStarted n cfg.repository), ?_, rfl, hs.tell⟩
    rw [State.advance, hs.now]
  refine hfetching.step (a := .fetched 0 .missing) rfl fun s hcalls hs =>
    ⟨s.tell (.fetched n false), ?_, rfl, hs.tell⟩
  rw [act, hcalls]
  rfl

theorem exists_broken_lookup {nanos : Nat} (hnow : Moment.after? (now + nanos) ttl = none) :
    ∃ past s o, Run cfg (.fresh now store (some ttl)) past s ∧
      (∀ p ∈ past, ∀ l' ∈ p.2.limits?, l' = l) ∧ s.now = now + nanos ∧
      s.view Stage.overflow? 0 = some o := by
  have hlooking : Comes cfg l (.fresh now store (some ttl)) (now + nanos) store (.empty ttl) .empty
      (.looking n l) := Comes.looking
  obtain ⟨past, s, hrun, hl, hcalls, hs⟩ := hlooking.recording hremote hstore
  have hi : s.calls[0]? = some (.recording n ⟨0, [n]⟩
      (.failed (.resolution n ("not found in " ++ cfg.repository ++ " repository")))) := by
    rw [hcalls, List.getElem?_cons_zero]
  have hout : s.Outlasts (.advance 0) :=
    ⟨0, _, _, rfl, (view_of_call hi).trans rfl, rfl, hs.failures, hs.now.symm ▸ hnow⟩
  obtain ⟨t, ht⟩ : ∃ t, s.act cfg (.advance 0) = some t := by
    rw [act, hi]
    exact ⟨_, rfl⟩
  obtain ⟨o, ho⟩ := (step_of_act ht).broken hout
  refine ⟨_, t, o, hrun.step ht, ?_, ?_, ho⟩
  · intro p hp
    rcases List.mem_append.mp hp with hp | hp
    · exact hl p hp
    · obtain rfl := List.mem_singleton.mp hp
      simp [Action.limits?]
  · rw [act_now ht rfl, hs.now]

end

end

end Engine

end OnDemand
