import OnDemand.Proofs.Engine.Run
import OnDemand.Proofs.Flight
import OnDemand.Proofs.Store

/-!
# What the calls hold in the tables

A lookup that leads holds its name in the table of lookups, and a batch holds the names it leads in
the table of compilations, each from its claim until it takes the names out. Both keep the flight
until it has landed. Every move of a call is one of the moves of a holder, so in every run the
tables and the calls agree (`Run.orderly`).
-/

namespace OnDemand.Engine

open State FlightTable

namespace BatchStage

/-- The flight of a batch and the names it has in the table. -/
def guard? : BatchStage → Option Guard
  | entering _ _ => none
  | claiming _ _ _ claims => some ⟨claims.flight, claims.led⟩
  | following b _ _ => some ⟨b.claims.flight, b.claims.led⟩
  | checking b _ _ => some ⟨b.claims.flight, b.claims.led⟩
  | submitting b => some ⟨b.claims.flight, b.claims.led⟩
  | building b _ _ _ => some ⟨b.claims.flight, b.claims.led⟩
  | storing b _ _ => some ⟨b.claims.flight, b.claims.led⟩
  | releasing g _ => some g
  | landing g _ => some ⟨g.flight, []⟩

end BatchStage

namespace Stage

def batch? : Stage → Option BatchStage
  | compiling _ _ b => some b
  | batch b => some b
  | _ => none

def batchGuard? (st : Stage) : Option Guard :=
  st.batch?.bind BatchStage.guard?

def lookupGuard? : Stage → Option Guard
  | departing _ _ g => some g
  | fetching _ _ g _ => some g
  | compiling _ g _ => some g
  | rechecking _ g => some g
  | recording _ g _ => some g
  | releasing g _ => some g
  | landing g _ => some ⟨g.flight, []⟩
  | _ => none

end Stage

def heldNext (next : BatchStage ⊕ BatchEnd) : Option Guard :=
  next.getLeft?.bind BatchStage.guard?

/-! ## What the ways out of a stage hold -/

theorem heldNext_endBatch (c : Claims) (ending : BatchEnd) :
    (c.led = [] ∧ heldNext (endBatch c ending) = none) ∨
      heldNext (endBatch c ending) = some ⟨c.flight, c.led⟩ := by
  cases h : c.led with
  | nil => exact Or.inl ⟨rfl, by simp [endBatch, Claims.guard?, h, heldNext]⟩
  | cons n ns => exact Or.inr (by simp [endBatch, Claims.guard?, h, heldNext, BatchStage.guard?])

theorem tableMove_endBatch {stored : Name → Bool} {t t' : FlightTable (Option CallError)} (c : Claims)
    (ending : BatchEnd) (h : t' = t) :
    TableMove stored t (some ⟨c.flight, c.led⟩) t' (heldNext (endBatch c ending)) := by
  subst h
  rcases heldNext_endBatch c ending with ⟨hled, he⟩ | he
  · rw [he]
    exact .leave _ _ hled
  · rw [he]
    exact .rest _ _

theorem Onward.tableMove {now : Moment} {stored : Name → Bool} {b : Batch} {rest : List (Name × Nat)}
    {next : BatchStage ⊕ BatchEnd} (t : FlightTable (Option CallError)) (h : Onward now b rest next) :
    TableMove stored t (some ⟨b.claims.flight, b.claims.led⟩) t (heldNext next) := by
  cases h with
  | submit => exact .rest _ _
  | wait => exact .rest _ _
  | overflow => exact tableMove_endBatch b.claims _ rfl

theorem flightOf_ne_pending (ending : BatchEnd) : flightOf ending ≠ .pending := by
  cases ending with
  | reported r =>
    simp only [flightOf]
    split <;> simp
  | _ => simp [flightOf]

theorem lookupFlight_ne_pending (ending : LookupEnd) : lookupFlight ending ≠ .pending := by
  cases ending <;> simp [lookupFlight]

theorem lookupGuard?_afterBatch (n : Name) (g : Guard) (next : BatchStage ⊕ BatchEnd) :
    (afterBatch n g next).lookupGuard? = some g := by
  rcases next with b | e
  · rfl
  · cases e <;> rfl

theorem batch?_afterBatch (n : Name) (g : Guard) (next : BatchStage ⊕ BatchEnd) :
    (afterBatch n g next).batch? = next.getLeft? := by
  rcases next with b | e
  · rfl
  · cases e <;> rfl

theorem lookupGuard?_afterOwnBatch (next : BatchStage ⊕ BatchEnd) :
    (afterOwnBatch next).lookupGuard? = none := by
  rcases next with b | e <;> rfl

theorem batch?_afterOwnBatch (next : BatchStage ⊕ BatchEnd) :
    (afterOwnBatch next).batch? = next.getLeft? := by
  rcases next with b | e <;> rfl

def Stage.resume (next : BatchStage ⊕ BatchEnd) : Stage → Stage
  | compiling n g _ => afterBatch n g next
  | _ => afterOwnBatch next

theorem batch?_resume (st : Stage) (next : BatchStage ⊕ BatchEnd) :
    (st.resume next).batch? = next.getLeft? := by
  unfold Stage.resume
  split
  · exact batch?_afterBatch _ _ next
  · exact batch?_afterOwnBatch next

/-! ## Moves of calls are moves of holders -/

section
variable {cfg : Settings} {s t : State} {call : Nat} {a : Action}

theorem BatchMove.building {b : BatchStage} {next : BatchStage ⊕ BatchEnd}
    (h : BatchMove cfg s call a b t next) :
    TableMove s.store.contains s.building b.guard? t.building (heldNext next) := by
  cases h with
  | enter => exact .begin _
  | follow => exact .rest _ _
  | skip => exact .rest _ _
  | lead hf hs => exact .claim _ _ _ hf hs
  | claimed ho => exact ho.tableMove _
  | arrive => exact .rest _ _
  | arriveAll => exact .rest _ _
  | join _ ho => exact ho.tableMove _
  | takeOver _ ho => exact ho.tableMove _
  | idle _ hq => exact tableMove_endBatch _ _ hq.building
  | submit => exact .rest _ _
  | receive => exact .rest _ _
  | fail _ _ _ hq => exact tableMove_endBatch _ _ hq.building
  | keep => exact tableMove_endBatch _ _ rfl
  | conflict _ hq => exact tableMove_endBatch _ _ hq.building
  | release => exact .release _ _
  | @land g ending => exact .settle _ ⟨g.flight, []⟩ _ rfl (flightOf_ne_pending ending)
  | expireWait _ hq => exact tableMove_endBatch _ _ hq.building
  | expireBuild hq => exact tableMove_endBatch _ _ hq.building

variable {st st' : Stage}

theorem advance_of_batch? {b : BatchStage} (hst : st.batch? = some b) :
    s.advance cfg call st = (s.advanceBatch cfg call b).map fun r => (r.1, st.resume r.2) := by
  cases st with
  | compiling n g b' =>
    obtain rfl := Option.some.inj hst
    rfl
  | batch b' =>
    obtain rfl := Option.some.inj hst
    rfl
  | _ => cases hst

theorem expire_of_batch? {b : BatchStage} (hst : st.batch? = some b) :
    s.expire st = (s.expireBatch b).map fun r => (r.1, st.resume r.2) := by
  cases st with
  | compiling n g b' =>
    obtain rfl := Option.some.inj hst
    rfl
  | batch b' =>
    obtain rfl := Option.some.inj hst
    rfl
  | _ => cases hst

structure Apart (s t : State) (st st' : Stage) : Prop where
  store : t.store = s.store
  building : t.building = s.building
  claimant : t.claimant = s.claimant
  occupant : t.occupant = s.occupant
  jobs : t.jobs = s.jobs
  before : st.batch? = none
  after : st'.batch? = none ∨ ∃ units limits, st'.batch? = some (.entering units limits)

theorem State.Quiet.apart (h : s.Quiet t) (hb : st.batch? = none) (ha : st'.batch? = none) :
    Apart s t st st' :=
  ⟨h.store, h.building, h.claimant, h.occupant, h.jobs, hb, Or.inl ha⟩

theorem CallMove.batch_or_apart (h : CallMove cfg s call a st t st') :
    (∃ b next, st.batch? = some b ∧ BatchMove cfg s call a b t next ∧ st'.batch? = next.getLeft?) ∨
      Apart s t st st' := by
  cases h with
  | compile hb => exact Or.inl ⟨_, _, rfl, hb, batch?_afterBatch _ _ _⟩
  | own hb => exact Or.inl ⟨_, _, rfl, hb, batch?_afterOwnBatch _⟩
  | peek => exact Or.inr ((quiet_read _ _ _).apart rfl rfl)
  | hit => exact Or.inr ((quiet_tellLookup _ _ _).apart rfl rfl)
  | isRemote => exact Or.inr ((quiet_tellLookup _ _ _).apart rfl rfl)
  | isLocal => exact Or.inr ((quiet_tellLookup _ _ _).apart rfl rfl)
  | reread => exact Or.inr ((quiet_read _ _ _).apart rfl rfl)
  | recheck => exact Or.inr ((quiet_read _ _ _).apart rfl rfl)
  | record => exact Or.inr ((quiet_record _ _ _).apart rfl rfl)
  | expireWait _ hq => exact Or.inr (hq.apart rfl rfl)
  | expireFetch hq => exact Or.inr (hq.apart rfl rfl)
  | unfetched hq => exact Or.inr (hq.apart rfl rfl)
  | fetched => exact Or.inr ⟨rfl, rfl, rfl, rfl, rfl, rfl, Or.inr ⟨_, _, rfl⟩⟩
  | _ => exact Or.inr ⟨rfl, rfl, rfl, rfl, rfl, rfl, Or.inl rfl⟩

theorem CallMove.building (h : CallMove cfg s call a st t st') :
    TableMove s.store.contains s.building st.batchGuard? t.building st'.batchGuard? := by
  rcases h.batch_or_apart with ⟨b, next, hb, hm, hn⟩ | hap
  · rw [Stage.batchGuard?, Stage.batchGuard?, hb, hn]
    exact hm.building
  · have hafter : st'.batchGuard? = none := by
      rcases hap.after with h | ⟨units, limits, h⟩ <;> simp [Stage.batchGuard?, h, BatchStage.guard?]
    rw [hap.building, hafter, Stage.batchGuard?, hap.before]
    exact .rest _ _

theorem CallMove.resolving (h : CallMove cfg s call a st t st') :
    TableMove s.store.contains s.resolving st.lookupGuard? t.resolving st'.lookupGuard? := by
  -- a lookup claims a name, releases it, ends its flight, or leaves the table alone
  cases h with
  | peek => exact .same _ (quiet_read _ _ _).resolving
  | hit => exact .same _ (quiet_tellLookup _ _ _).resolving
  | miss => exact .rest _ _
  | isRemote => exact .same _ (quiet_tellLookup _ _ _).resolving
  | isLocal => exact .same _ (quiet_tellLookup _ _ _).resolving
  | forgetful => exact .rest _ _
  | forgotten => exact .rest _ _
  | remembered => exact .rest _ _
  | follow => exact .idle _
  | followOverflow => exact .idle _
  | skip => exact .idle _
  | lead hf hs => exact .lead _ _ hf hs
  | reread => exact .same _ (quiet_read _ _ _).resolving
  | share => exact .rest _ _
  | shareLoss => exact .rest _ _
  | depart => exact .rest _ _
  | compile hb =>
    rw [lookupGuard?_afterBatch]
    exact .same _ hb.frame.resolving
  | recheck => exact .same _ (quiet_read _ _ _).resolving
  | record => exact .same _ (quiet_record _ _ _).resolving
  | release => exact .release _ _
  | @land g ending => exact .settle _ ⟨g.flight, []⟩ _ rfl (lookupFlight_ne_pending ending)
  | own hb =>
    rw [lookupGuard?_afterOwnBatch]
    exact .same _ hb.frame.resolving
  | expireWait _ hq => exact .same _ hq.resolving
  | expireFetch hq => exact .same _ hq.resolving
  | fetched => exact .rest _ _
  | unfetched hq => exact .same _ hq.resolving

end

/-! ## The store only grows -/

theorem BatchFrame.extends {s t : State} {b : BatchStage} (h : BatchFrame s b t) :
    t.store.Extends s.store := by
  rcases h.store with he | ⟨_, _, _, _, _, hp⟩
  · rw [he]
    exact .refl _
  · exact Store.extends_of_putAll hp

theorem CallMove.extends {cfg : Settings} {s t : State} {call : Nat} {a : Action}
    {st st' : Stage} (h : CallMove cfg s call a st t st') : t.store.Extends s.store := by
  rcases h.batch_or_apart with ⟨b, next, -, hm, -⟩ | hap
  · exact hm.frame.extends
  · rw [hap.store]
    exact .refl _

theorem Step.extends {cfg : Settings} {s t : State} {a : Action} (h : Step cfg s a t) :
    t.store.Extends s.store := by
  cases h with
  | call r => exact .refl _
  | move _ hm => exact hm.extends
  | occupy => exact .refl _
  | launch _ _ hq => rw [State.setJob_store, hq.store]; exact .refl _
  | built | founder => exact .refl _
  | put hp => exact Store.extends_of_put hp
  | putAll hp => exact Store.extends_of_putAll hp
  | quiet _ hq => rw [hq.store]; exact .refl _

theorem Run.extends {cfg : Settings} {s₀ s u : State} {past : List (State × Action)}
    (h : Run cfg s₀ past s) (hu : u ∈ visited past s) : s.store.Extends u.store :=
  h.since (R := fun s t => t.store.Extends s.store) Step.extends (fun s => .refl s.store)
    (fun h₁ h₂ => h₁.trans h₂) hu

/-! ## What becomes of a batch -/

theorem Step.batch_after {cfg : Settings} {s t : State} {a : Action} {i : Nat} {b' : BatchStage}
    (h : Step cfg s a t) (hb : t.view Stage.batch? i = some b') :
    s.view Stage.batch? i = some b' ∨ (∃ units limits, b' = .entering units limits) ∨
      ∃ b u next st', s.view Stage.batch? i = some b ∧ BatchMove cfg s i a b u next ∧
        next.getLeft? = some b' ∧ t = u.setCall i st' := by
  obtain ⟨st', hi, hb'⟩ := view_eq_some.mp hb
  rcases h.call_after hi with hi | ⟨-, r, -, rfl⟩ | ⟨st, u, hi, hm, ht⟩
  · exact Or.inl ((view_of_call hi).trans hb')
  · cases r with
    | compile units limits => exact Or.inr (Or.inl ⟨units, limits, (Option.some.inj hb').symm⟩)
    | _ => cases hb'
  · rcases hm.batch_or_apart with ⟨b, next, hst, hm, hn⟩ | hap
    · exact Or.inr (Or.inr ⟨b, u, next, st', (view_of_call hi).trans hst, hm, hn.symm.trans hb', ht⟩)
    · rcases hap.after with hnone | ⟨units, limits, he⟩
      · rw [hnone] at hb'
        cases hb'
      · exact Or.inr (Or.inl ⟨units, limits, Option.some.inj (hb'.symm.trans he)⟩)

theorem Step.batch_before {cfg : Settings} {s t : State} {a : Action} {i : Nat} {b : BatchStage}
    (h : Step cfg s a t) (hb : s.view Stage.batch? i = some b) :
    t.view Stage.batch? i = some b ∨
      ∃ u next st', BatchMove cfg s i a b u next ∧ t = u.setCall i st' ∧
        t.view Stage.batch? i = next.getLeft? := by
  obtain ⟨st, hi, hst⟩ := view_eq_some.mp hb
  rcases h.call_before hi with ⟨-, hi⟩ | ⟨u, st', hm, ht, hi⟩
  · exact Or.inl ((view_of_call hi).trans hst)
  · rcases hm.batch_or_apart with ⟨b₁, next, hb₁, hm, hn⟩ | hap
    · obtain rfl := Option.some.inj (hb₁.symm.trans hst)
      exact Or.inr ⟨u, next, st', hm, ht, (view_of_call hi).trans hn⟩
    · rw [hap.before] at hst
      cases hst

theorem Step.batches {cfg : Settings} {s t : State} {a : Action} {P : BatchStage → Prop}
    (henter : ∀ units limits, P (.entering units limits))
    (hmove : ∀ {i b b' u next}, BatchMove cfg s i a b u next → next.getLeft? = some b' → P b → P b')
    (h : Step cfg s a t) (hs : ∀ i b, s.view Stage.batch? i = some b → P b) :
    ∀ i b, t.view Stage.batch? i = some b → P b := by
  intro i b' hb'
  rcases h.batch_after hb' with hb | ⟨units, limits, rfl⟩ | ⟨b, u, next, _, hb, hm, hn, -⟩
  · exact hs i b' hb
  · exact henter units limits
  · exact hmove hm hn (hs i b hb)

/-! ## The tables and the calls agree -/

structure Orderly (s : State) : Prop where
  lookups : s.resolving.Held (s.view Stage.lookupGuard?)
  batches : s.building.Held (s.view Stage.batchGuard?)

theorem view_fresh {β : Type} (f : Stage → Option β) (now : Moment) (store : Store)
    (ttl : Option Duration) : (State.fresh now store ttl).view f = fun _ => none := by
  funext i
  simp [State.view, State.fresh]

theorem orderly_fresh (now : Moment) (store : Store) (ttl : Option Duration) :
    Orderly (.fresh now store ttl) := by
  constructor
  · rw [view_fresh]
    exact held_empty
  · rw [view_fresh]
    exact held_empty

theorem Orderly.congr {s t : State} (h : Orderly s) (hr : t.resolving = s.resolving)
    (hb : t.building = s.building) (hc : t.calls = s.calls) : Orderly t := by
  constructor
  · rw [hr, State.view_congr hc]
    exact h.lookups
  · rw [hb, State.view_congr hc]
    exact h.batches

theorem Orderly.step {cfg : Settings} {s t : State} {a : Action} (h : Orderly s)
    (hst : Step cfg s a t) : Orderly t := by
  cases hst with
  | call r =>
    constructor
    · rw [State.view_call (s := s) (by cases r <;> rfl) rfl]
      exact h.lookups
    · rw [State.view_call (s := s) (by cases r <;> rfl) rfl]
      exact h.batches
  | move hc hm =>
    constructor
    · rw [hm.view hc]
      exact h.lookups.move (State.view_of_call hc) hm.resolving
    · rw [hm.view hc]
      exact h.batches.move (State.view_of_call hc) hm.building
  | occupy => exact h.congr rfl rfl rfl
  | launch _ _ hq => exact h.congr hq.resolving hq.building hq.calls
  | built | founder => exact h.congr rfl rfl rfl
  | put => exact h.congr rfl rfl rfl
  | putAll => exact h.congr rfl rfl rfl
  | quiet _ hq => exact h.congr hq.resolving hq.building hq.calls

theorem Run.orderly {cfg : Settings} {now : Moment} {store : Store} {ttl : Option Duration}
    {past : List (State × Action)} {s : State} (h : Run cfg (.fresh now store ttl) past s) :
    Orderly s :=
  h.invariant Orderly.step (orderly_fresh now store ttl)

end OnDemand.Engine
