import OnDemand.Proofs.Engine.Ledger
import OnDemand.Proofs.Engine.Turns

/-!
# What a batch stores

A batch changes the store in one move, in which it stores what the compiler made for it, and it
answers with a report then. A batch that fails has changed nothing, and neither does a compiler run
that goes on when its batch has given up (`published_once`).
-/

namespace OnDemand.Engine

open State

section
variable {cfg : Settings} {now : Moment} {store : Store} {ttl : Option Duration}
  {past : List (State × Action)} {s t u : State} {a : Action} {i k : Nat} {b b' : BatchStage}
  {next : BatchStage ⊕ BatchEnd} {e : BatchEnd} {names : List Name} {o : BuildOutput}

/-! ## What the compiler has made -/

theorem Run.built (h : Run cfg (.fresh now store ttl) past s) {j : Job} {reply : BuildReply}
    (hj : s.jobs[k]? = some j) (hr : j.stage = .returned (.ended reply)) :
    ∃ w, (w, .built k reply) ∈ past := by
  induction h generalizing j with
  | start =>
    simp [State.fresh] at hj
  | @step past s a t _ ha ih =>
    rcases (step_of_act ha).job_returned hj hr with hj | ⟨hend, -⟩
    · obtain ⟨w, hw⟩ := ih hj hr
      exact ⟨w, List.mem_append_left _ hw⟩
    · obtain rfl := Action.ending?_eq_ended.mp hend
      exact ⟨s, by simp⟩

/-- Call `i` has handed the submission of `b` to the compiler, as job `k`. -/
def Handed (past : List (State × Action)) (i : Nat) (b : Batch) (k : Nat) : Prop :=
  b.submission ≠ [] ∧ ∃ v, (v, .advance i) ∈ past ∧
    v.view Stage.batch? i = some (.submitting b) ∧ v.jobs.length = k

/-- Call `i` has handed units of these names to the compiler, which has made `o` of them. -/
def Made (past : List (State × Action)) (i : Nat) (names : List Name) (o : BuildOutput) : Prop :=
  ∃ b k w, Handed past i b k ∧ b.submission.map (·.name) = names ∧ (w, .built k (.output o)) ∈ past

theorem Handed.append {b : Batch} (h : Handed past i b k) (after : List (State × Action)) :
    Handed (past ++ after) i b k := by
  obtain ⟨hne, v, hv, hb, hk⟩ := h
  exact ⟨hne, v, List.mem_append_left _ hv, hb, hk⟩

theorem Made.append (h : Made past i names o) (after : List (State × Action)) :
    Made (past ++ after) i names o := by
  obtain ⟨b, k, w, hb, hnames, hw⟩ := h
  exact ⟨b, k, w, hb.append after, hnames, List.mem_append_left _ hw⟩

theorem Made.ne_nil (h : Made past i names o) : names ≠ [] := by
  obtain ⟨b, k, w, ⟨hne, -⟩, rfl, -⟩ := h
  simpa using hne

def BatchStage.Based (past : List (State × Action)) (i : Nat) : BatchStage → Prop
  | building b submitted k _ => Handed past i b k ∧ b.submission.map (·.name) = submitted
  | storing _ submitted o => Made past i submitted o
  | _ => True

theorem BatchStage.Based.append (h : b.Based past i) (after : List (State × Action)) :
    b.Based (past ++ after) i := by
  cases b with
  | building => exact ⟨h.1.append after, h.2⟩
  | storing => exact Made.append h after
  | _ => exact trivial

theorem based_endBatch {c : Claims} (hn : (endBatch c e).getLeft? = some b') : b'.Based past i := by
  rw [endBatch_stage hn]
  exact trivial

theorem Onward.based {b : Batch} {rest : List (Name × Nat)} (h : Onward now b rest next)
    (hn : next.getLeft? = some b') : b'.Based past i := by
  rcases h.stage hn with ⟨-, rfl⟩ | ⟨_, rfl⟩ | rfl
  · exact trivial
  · exact trivial
  · exact trivial

theorem BatchMove.based (h : Run cfg (.fresh now store ttl) past s)
    (hb : s.view Stage.batch? i = some b) (hm : BatchMove cfg s i a b u next)
    (hbased : b.Based past i) (hn : next.getLeft? = some b') : b'.Based (past ++ [(s, a)]) i := by
  cases hm with
  | submit hne =>
    obtain rfl := Option.some.inj hn
    exact ⟨⟨hne, s, by simp, hb, rfl⟩, rfl⟩
  | receive hj hr =>
    obtain rfl := Option.some.inj hn
    obtain ⟨hhanded, hnames⟩ := hbased
    obtain ⟨w, hw⟩ := h.built hj hr
    exact ⟨_, _, w, hhanded.append _, hnames, List.mem_append_left _ hw⟩
  | claimed ho => exact ho.based hn
  | join _ ho => exact ho.based hn
  | takeOver _ ho => exact ho.based hn
  | idle | fail | keep | conflict | expireWait | expireBuild => exact based_endBatch hn
  | land => cases hn
  | _ =>
    obtain rfl := Option.some.inj hn
    exact trivial

theorem Run.based (h : Run cfg (.fresh now store ttl) past s) :
    ∀ {i b}, s.view Stage.batch? i = some b → b.Based past i := by
  induction h with
  | start =>
    intro i b hb
    rw [view_fresh] at hb
    cases hb
  | @step past s a t h ha ih =>
    intro i b' hb'
    rcases (step_of_act ha).batch_after hb' with hb | ⟨_, _, rfl⟩ | ⟨b, u, next, _, hb, hm, hn, -⟩
    · exact (ih hb).append _
    · exact trivial
    · exact BatchMove.based h hb hm (ih hb) hn

/-! ## How batches move -/

def State.batchMove? (cfg : Settings) (s : State) : Action → Option (State × (BatchStage ⊕ BatchEnd))
  | .advance i => (s.view Stage.batch? i).bind fun b => s.advanceBatch cfg i b
  | .expire i => (s.view Stage.batch? i).bind fun b => s.expireBatch b
  | _ => none

variable {st : Stage}

theorem ledger?_resume (st : Stage) (next : BatchStage ⊕ BatchEnd) :
    (st.resume next).ledger? = next.getLeft?.bind BatchStage.ledger? := by
  unfold Stage.resume
  split
  · exact ledger?_afterBatch _ _ next
  · exact ledger?_afterOwnBatch next

theorem State.batchMove?_mover {r : State × (BatchStage ⊕ BatchEnd)}
    (h : s.batchMove? cfg a = some r) :
    ∃ i b, a.mover? = some i ∧ s.view Stage.batch? i = some b ∧ BatchMove cfg s i a b r.1 r.2 := by
  cases a with
  | advance i =>
    obtain ⟨b, hb, hm⟩ := Option.bind_eq_some_iff.mp h
    exact ⟨i, b, rfl, hb, batchMove_of_advance hm⟩
  | expire i =>
    obtain ⟨b, hb, hm⟩ := Option.bind_eq_some_iff.mp h
    exact ⟨i, b, rfl, hb, batchMove_of_expire hm⟩
  | _ => cases h

theorem State.batchMove?_of_act (hi : s.calls[i]? = some st) (hst : st.batch? = some b)
    (ha : a.mover? = some i) (hact : s.act cfg a = some t) :
    ∃ u next, s.batchMove? cfg a = some (u, next) ∧ BatchMove cfg s i a b u next ∧
      t = u.setCall i (st.resume next) := by
  have hb : s.view Stage.batch? i = some b := (view_of_call hi).trans hst
  -- a batch moves on or gives up; the answer to a fetch is no move of a batch
  cases a with
  | advance j =>
    obtain rfl := Option.some.inj ha
    simp only [act, hi, Option.bind_some, advance_of_batch? hst, Option.map_map,
      Option.map_eq_some_iff] at hact
    obtain ⟨⟨u, next⟩, hm, rfl⟩ := hact
    refine ⟨u, next, ?_, batchMove_of_advance hm, rfl⟩
    rw [State.batchMove?, hb]
    exact hm
  | expire j =>
    obtain rfl := Option.some.inj ha
    simp only [act, hi, Option.bind_some, expire_of_batch? hst, Option.map_map,
      Option.map_eq_some_iff] at hact
    obtain ⟨⟨u, next⟩, hm, rfl⟩ := hact
    refine ⟨u, next, ?_, batchMove_of_expire hm, rfl⟩
    rw [State.batchMove?, hb]
    exact hm
  | fetched j reply =>
    obtain rfl := Option.some.inj ha
    simp only [act, hi, Option.bind_some, Option.map_eq_some_iff] at hact
    obtain ⟨r, hfetch, -⟩ := hact
    cases st with
    | fetching => cases hst
    | _ => cases hfetch
  | _ => cases ha

/-! ## What a call has stored -/

/-- No move of call `i` has changed the store. -/
def Untouched (cfg : Settings) (past : List (State × Action)) (i : Nat) : Prop :=
  ∀ p ∈ past, p.2.mover? = some i → ∀ t, p.1.act cfg p.2 = some t → t.store = p.1.store

theorem Untouched.step (h : Untouched cfg past i)
    (hs : a.mover? = some i → ∀ t, s.act cfg a = some t → t.store = s.store) :
    Untouched cfg (past ++ [(s, a)]) i := by
  intro p hp
  rcases List.mem_append.mp hp with hp | hp
  · exact h p hp
  · obtain rfl := List.mem_singleton.mp hp
    exact hs

/-- One move of call `i` has stored what the compiler made for it, the first artifact of each name
that was free, and no other move of it has changed the store. -/
def Wrote (cfg : Settings) (past : List (State × Action)) (i : Nat) (r : Report) : Prop :=
  ∃ before u after t o, past = before ++ (u, .advance i) :: after ∧
    u.act cfg (.advance i) = some t ∧ Untouched cfg before i ∧ Untouched cfg after i ∧
    Made before i r.submitted o ∧
    (∀ n, t.store.get? n = (u.store.get? n).or (o.artifacts.find? (·.name = n))) ∧
    (∀ n, n ∈ r.produced ↔ u.store.get? n = none ∧ ∃ x ∈ o.artifacts, x.name = n) ∧
    r.produced.Pairwise (· < ·)

theorem Wrote.step {r : Report} (h : Wrote cfg past i r)
    (hs : a.mover? = some i → ∀ t, s.act cfg a = some t → t.store = s.store) :
    Wrote cfg (past ++ [(s, a)]) i r := by
  obtain ⟨before, u, after, t, o, rfl, hact, hbefore, hafter, hr⟩ := h
  exact ⟨before, u, after ++ [(s, a)], t, o, by simp, hact, hbefore, hafter.step hs, hr⟩

def Deed (cfg : Settings) (past : List (State × Action)) (i : Nat) : BatchEnd → Prop
  | .reported r =>
    (r.submitted = [] ∧ r.produced = [] ∧ Untouched cfg past i) ∨ Wrote cfg past i r
  | _ => Untouched cfg past i

theorem Deed.step (h : Deed cfg past i e)
    (hs : a.mover? = some i → ∀ t, s.act cfg a = some t → t.store = s.store) :
    Deed cfg (past ++ [(s, a)]) i e := by
  cases e with
  | reported r =>
    rcases h with ⟨hsub, hprod, h⟩ | h
    · exact Or.inl ⟨hsub, hprod, h.step hs⟩
    · exact Or.inr (h.step hs)
  | failed err => exact Untouched.step h hs
  | overflowed ov => exact Untouched.step h hs

def BatchStage.ending? : BatchStage → Option BatchEnd
  | releasing _ e => some e
  | landing _ e => some e
  | _ => none

def nextEnding? (next : BatchStage ⊕ BatchEnd) : Option BatchEnd :=
  next.elim BatchStage.ending? some

theorem nextEnding?_endBatch (c : Claims) (e : BatchEnd) : nextEnding? (endBatch c e) = some e := by
  unfold endBatch
  split <;> rfl

theorem Onward.ending {b : Batch} {rest : List (Name × Nat)} (h : Onward now b rest next)
    (he : nextEnding? next = some e) : e = .overflowed .deadline := by
  cases h with
  | submit => cases he
  | wait => cases he
  | overflow =>
    rw [nextEnding?_endBatch] at he
    exact (Option.some.inj he).symm

theorem BatchStage.ledger?_of_ending? (h : b.ending? = none) : ∃ l, b.ledger? = some l := by
  cases b with
  | releasing => cases h
  | landing => cases h
  | _ => exact ⟨_, rfl⟩

theorem BatchStage.ending?_of_ledger? {l : Ledger} (h : b.ledger? = some l) : b.ending? = none := by
  cases b with
  | releasing => cases h
  | landing => cases h
  | _ => rfl

theorem BatchMove.ended (hm : BatchMove cfg s i a b u next) (hb : b.ending? = some e) :
    nextEnding? next = some e ∧ u.store = s.store := by
  cases hm with
  | release => exact ⟨hb, rfl⟩
  | land => exact ⟨hb, rfl⟩
  | _ => cases hb

theorem BatchMove.unchanged (hm : BatchMove cfg s i a b u next) (hn : nextEnding? next = none) :
    u.store = s.store := by
  cases hm with
  | keep =>
    rw [nextEnding?_endBatch] at hn
    cases hn
  | idle _ hq => exact hq.store
  | fail _ _ _ hq => exact hq.store
  | conflict _ hq => exact hq.store
  | expireWait _ hq => exact hq.store
  | expireBuild hq => exact hq.store
  | _ => rfl

theorem BatchMove.deed (hm : BatchMove cfg s i a b u next) (hbased : b.Based past i)
    (hopen : Untouched cfg past i) (hact : s.act cfg a = some t) (htu : t.store = u.store)
    (hb : b.ending? = none) (he : nextEnding? next = some e) : Deed cfg (past ++ [(s, a)]) i e := by
  have hsame : u.store = s.store → Untouched cfg (past ++ [(s, a)]) i := by
    intro hu
    refine hopen.step fun _ t' ht' => ?_
    obtain rfl := Option.some.inj (hact.symm.trans ht')
    exact htu.trans hu
  -- only `keep` writes, and it ends the batch in the same move
  cases hm with
  | claimed ho =>
    rw [ho.ending he]
    exact hsame rfl
  | join _ ho =>
    rw [ho.ending he]
    exact hsame rfl
  | takeOver _ ho =>
    rw [ho.ending he]
    exact hsame rfl
  | idle _ hq =>
    rw [nextEnding?_endBatch] at he
    obtain rfl := Option.some.inj he
    exact Or.inl ⟨rfl, rfl, hsame hq.store⟩
  | fail _ _ _ hq =>
    rw [nextEnding?_endBatch] at he
    obtain rfl := Option.some.inj he
    exact hsame hq.store
  | keep hp =>
    rw [nextEnding?_endBatch] at he
    obtain rfl := Option.some.inj he
    obtain ⟨hordered, hnames⟩ := Store.names_of_putAll hp
    have hafter : Untouched cfg [] i := fun p hp => absurd hp List.not_mem_nil
    refine Or.inr ⟨past, s, [], t, _, rfl, hact, hopen, hafter, hbased, ?_, hnames, hordered⟩
    intro n
    rw [htu]
    exact Store.get?_of_putAll hp n
  | conflict _ hq =>
    rw [nextEnding?_endBatch] at he
    obtain rfl := Option.some.inj he
    exact hsame hq.store
  | expireWait _ hq =>
    rw [nextEnding?_endBatch] at he
    obtain rfl := Option.some.inj he
    exact hsame hq.store
  | expireBuild hq =>
    rw [nextEnding?_endBatch] at he
    obtain rfl := Option.some.inj he
    exact hsame hq.store
  | release => cases hb
  | land => cases hb
  | _ => cases he

/-! ## Runs -/

/-- The batch of call `i` has returned this end to its caller. -/
def Returned (cfg : Settings) (past : List (State × Action)) (i : Nat) (e : BatchEnd) : Prop :=
  ∃ p ∈ past, p.2.mover? = some i ∧ ∃ u, p.1.batchMove? cfg p.2 = some (u, .inr e)

theorem returned_step : Returned cfg (past ++ [(s, a)]) i e ↔ Returned cfg past i e ∨
    (a.mover? = some i ∧ ∃ u, s.batchMove? cfg a = some (u, .inr e)) := by
  simp [Returned, or_and_right, exists_or]

/-- How a call stands with the store: it has stored nothing until its batch has come to an end, and
then it has done what the end says; a batch that has returned is the last of its call. -/
structure Stood (cfg : Settings) (past : List (State × Action)) (s : State) (i : Nat) : Prop where
  opened : ∀ {l}, s.ledger? i = some l → Untouched cfg past i
  closing : ∀ {b e}, s.view Stage.batch? i = some b → b.ending? = some e → Deed cfg past i e
  closed : ∀ {e}, Returned cfg past i e →
    s.ledger? i = none ∧ s.view Stage.batch? i = none ∧ Deed cfg past i e

theorem ledger?_of_call {st : Stage} (hi : s.calls[i]? = some st) : s.ledger? i = st.ledger? := by
  rw [State.ledger?, hi]

theorem Stood.others (h : Stood cfg past s i) (hst : Step cfg s a t) (ha : a.mover? ≠ some i) :
    Stood cfg (past ++ [(s, a)]) t i := by
  have hstep : a.mover? = some i → ∀ t, s.act cfg a = some t → t.store = s.store :=
    fun hi => absurd hi ha
  have hret : ∀ {e}, Returned cfg (past ++ [(s, a)]) i e → Returned cfg past i e := by
    intro e he
    rcases returned_step.mp he with he | ⟨hi, -⟩
    · exact he
    · exact absurd hi ha
  -- the call is as it was, and what others store is not its doing
  cases hi : s.calls[i]? with
  | some st =>
    have ht : t.calls[i]? = some st := by
      rcases hst.call_before hi with ⟨-, ht⟩ | ⟨u, st', hm, -⟩
      · exact ht
      · exact absurd hm.mover ha
    have hledger : t.ledger? i = s.ledger? i := by rw [ledger?_of_call ht, ledger?_of_call hi]
    have hbatch : t.view Stage.batch? i = s.view Stage.batch? i := by
      rw [view_of_call ht, view_of_call hi]
    constructor
    · intro l hl
      exact (h.opened (hledger.symm.trans hl)).step hstep
    · intro b e hb he
      exact (h.closing (hbatch.symm.trans hb) he).step hstep
    · intro e he
      obtain ⟨hl, hb, hdeed⟩ := h.closed (hret he)
      exact ⟨hledger.trans hl, hbatch.trans hb, hdeed.step hstep⟩
  | none =>
    have hblank : s.ledger? i = some .blank := by rw [State.ledger?, hi]
    have hnone : s.view Stage.batch? i = none := by rw [State.view, hi, Option.bind_none]
    constructor
    · intro l _
      exact (h.opened hblank).step hstep
    · intro b e hb he
      rcases hst.batch_after hb with hb | ⟨_, _, rfl⟩ | ⟨b₀, _, _, _, hb, -⟩
      · rw [hnone] at hb
        cases hb
      · cases he
      · rw [hnone] at hb
        cases hb
    · intro e he
      obtain ⟨hl, -⟩ := h.closed (hret he)
      rw [hblank] at hl
      cases hl

theorem Stood.batch (h : Stood cfg past s i) (hbased : b.Based past i) (hi : s.calls[i]? = some st)
    (hst : st.batch? = some b) (ha : a.mover? = some i) (hact : s.act cfg a = some t) :
    Stood cfg (past ++ [(s, a)]) t i := by
  obtain ⟨u, next, hmove, hm, rfl⟩ := State.batchMove?_of_act hi hst ha hact
  have hcall : (u.setCall i (st.resume next)).calls[i]? = some (st.resume next) := by
    rw [calls_setCall (by rw [hm.frame.calls]; exact hi), if_pos rfl]
  have hview : (u.setCall i (st.resume next)).view Stage.batch? i = next.getLeft? :=
    (view_of_call hcall).trans (batch?_resume st next)
  have hledger : (u.setCall i (st.resume next)).ledger? i = next.getLeft?.bind BatchStage.ledger? :=
    (ledger?_of_call hcall).trans (ledger?_resume st next)
  have hb : s.view Stage.batch? i = some b := (view_of_call hi).trans hst
  have hopen : b.ending? = none → Untouched cfg past i := by
    intro hnone
    obtain ⟨l, hl⟩ := BatchStage.ledger?_of_ending? hnone
    refine h.opened (l := l) ?_
    rw [ledger?_of_call hi, Stage.ledger?_of_batch hst]
    exact hl
  have hstore : u.store = s.store → a.mover? = some i → ∀ t, s.act cfg a = some t → t.store = s.store := by
    intro hu _ t' ht'
    obtain rfl := Option.some.inj (hact.symm.trans ht')
    exact hu
  -- whatever end the batch has come to now, it has come to before or in this move
  have hdeed : ∀ {e}, nextEnding? next = some e → Deed cfg (past ++ [(s, a)]) i e := by
    intro e he
    cases hend : b.ending? with
    | none => exact hm.deed hbased (hopen hend) hact rfl hend he
    | some e₀ =>
      obtain ⟨hnext, hu⟩ := hm.ended hend
      obtain rfl := Option.some.inj (hnext.symm.trans he)
      exact (h.closing hb hend).step (hstore hu)
  constructor
  · intro l hl
    rw [hledger] at hl
    obtain ⟨b', hb', hl⟩ := Option.bind_eq_some_iff.mp hl
    obtain ⟨l₀, hl₀, -⟩ := hm.ledger hb' hl
    have hnone : nextEnding? next = none := by
      rw [Sum.getLeft?_eq_some_iff.mp hb']
      exact BatchStage.ending?_of_ledger? hl
    exact (hopen (BatchStage.ending?_of_ledger? hl₀)).step (hstore (hm.unchanged hnone))
  · intro b' e hb' he
    rw [hview] at hb'
    refine hdeed ?_
    rw [Sum.getLeft?_eq_some_iff.mp hb']
    exact he
  · intro e he
    rcases returned_step.mp he with he | ⟨-, u', hu'⟩
    · obtain ⟨-, hnone, -⟩ := h.closed he
      rw [hnone] at hb
      cases hb
    · obtain ⟨rfl, rfl⟩ := Prod.mk.inj (Option.some.inj (hmove.symm.trans hu'))
      exact ⟨hledger, hview, hdeed rfl⟩

theorem Stood.apart {st' : Stage} (h : Stood cfg past s i) (hi : s.calls[i]? = some st)
    (hst : st.batch? = none) (hm : CallMove cfg s i a st u st')
    (hact : s.act cfg a = some (u.setCall i st')) :
    Stood cfg (past ++ [(s, a)]) (u.setCall i st') i := by
  have hapart : Apart s u st st' := by
    rcases hm.batch_or_apart with ⟨b, next, hb, -⟩ | hap
    · rw [hst] at hb
      cases hb
    · exact hap
  have hcall : (u.setCall i st').calls[i]? = some st' := hm.placed hi
  have hstore : a.mover? = some i → ∀ t, s.act cfg a = some t → t.store = s.store := by
    intro _ t' ht'
    obtain rfl := Option.some.inj (hact.symm.trans ht')
    exact hapart.store
  -- a move apart from batches writes nothing and ends none
  constructor
  · intro l hl
    rw [ledger?_of_call hcall] at hl
    obtain ⟨l₀, hl₀, -⟩ := hm.ledger hi hl
    exact (h.opened ((ledger?_of_call hi).trans hl₀)).step hstore
  · intro b e hb he
    rw [view_of_call hcall] at hb
    rcases hapart.after with hnone | ⟨units, limits, henter⟩
    · rw [hnone] at hb
      cases hb
    · obtain rfl := Option.some.inj (henter.symm.trans hb)
      cases he
  · intro e he
    rcases returned_step.mp he with he | ⟨-, u', hu'⟩
    · obtain ⟨hl, -, hdeed⟩ := h.closed he
      have hl' : st'.ledger? = none := by
        by_contra hne
        obtain ⟨l', hl'⟩ := Option.ne_none_iff_exists'.mp hne
        obtain ⟨l₀, hl₀, -⟩ := hm.ledger hi hl'
        rw [ledger?_of_call hi, hl₀] at hl
        cases hl
      refine ⟨(ledger?_of_call hcall).trans hl', ?_, hdeed.step hstore⟩
      rw [view_of_call hcall]
      rcases hapart.after with hnone | ⟨units, limits, henter⟩
      · exact hnone
      · rw [Stage.ledger?_of_batch henter] at hl'
        cases hl'
    · obtain ⟨j, b, hj, hb, -⟩ := State.batchMove?_mover hu'
      obtain rfl := Option.some.inj (hj.symm.trans hm.mover)
      rw [view_of_call hi, hst] at hb
      cases hb

theorem Run.stood (h : Run cfg (.fresh now store ttl) past s) (i : Nat) : Stood cfg past s i := by
  induction h with
  | start =>
    constructor
    · intro l _ p hp
      cases hp
    · intro b e hb
      rw [view_fresh] at hb
      cases hb
    · rintro e ⟨p, hp, -⟩
      cases hp
  | @step past s a t h ha ih =>
    have hst := step_of_act ha
    by_cases hmover : a.mover? = some i
    · cases hi : s.calls[i]? with
      | none =>
        -- a call that does not exist makes no move
        cases hst with
        | @move id _ st _ _ hc hm =>
          obtain rfl := Option.some.inj (hm.mover.symm.trans hmover)
          rw [hi] at hc
          cases hc
        | quiet hquiet =>
          rw [Action.mover?_eq_none hquiet] at hmover
          cases hmover
        | _ => cases hmover
      | some st =>
        rcases hst.call_before hi with ⟨hne, -⟩ | ⟨u, st', hm, rfl, -⟩
        · exact absurd hmover hne
        · cases hb : st.batch? with
          | some b => exact ih.batch (h.based ((view_of_call hi).trans hb)) hi hb hmover ha
          | none => exact ih.apart hi hb hm ha
    · exact ih.others hst hmover

theorem CallMove.batch_of_answer (hm : CallMove cfg s i a st u (.finished (.batch e))) :
    ∃ b, st = .batch b := by
  generalize hst' : Stage.finished (.batch e) = st' at hm
  cases hm with
  | own => exact ⟨_, rfl⟩
  | @compile n g b a t next =>
    rcases next with b | e'
    · cases hst'
    · cases e' <;> cases hst'
  | _ => cases hst'

theorem Run.returned_of_answer (h : Run cfg (.fresh now store ttl) past s)
    (hi : s.calls[i]? = some (.finished (.batch e))) : Returned cfg past i e := by
  induction h with
  | start => simp [State.fresh] at hi
  | @step past s a t h ha ih =>
    rcases (step_of_act ha).call_after hi with hs | ⟨-, r, -, hr⟩ | ⟨st, u, hs, hm, -⟩
    · exact returned_step.mpr (Or.inl (ih hs))
    · cases r <;> cases hr
    · obtain ⟨b, rfl⟩ := hm.batch_of_answer
      obtain ⟨u', next, hmove, hbm, rfl⟩ := State.batchMove?_of_act hs rfl hm.mover ha
      rw [calls_setCall (by rw [hbm.frame.calls]; exact hs), if_pos rfl] at hi
      rcases next with b' | e'
      · cases hi
      · obtain rfl : e' = e := by simpa [Stage.resume, afterOwnBatch] using hi
        exact returned_step.mpr (Or.inr ⟨hm.mover, u', hmove⟩)

theorem Step.store_of_job (h : Step cfg s a t) (ha : a.isInner = true) (hm : a.mover? = none) :
    t.store = s.store := by
  cases h with
  | call r => cases ha
  | move _ hcall =>
    rw [hcall.mover] at hm
    cases hm
  | occupy => rfl
  | launch _ _ hq =>
    rw [setJob_store]
    exact hq.store
  | built | founder => rfl
  | put => cases ha
  | putAll => cases ha
  | quiet hquiet =>
    rw [hquiet] at ha
    cases ha

/-- A batch that has returned an error has changed nothing in the store, before or after. A batch
that has returned a report has changed nothing if it handed nothing to the compiler, and else has
stored, in one move and no other, the first artifact of each free name of what the compiler made for
it; the report lists these names in order. A compiler run that ends changes nothing by itself, also
when its batch has given up. -/
theorem published_once (h : Run cfg (.fresh now store ttl) past s) :
    (∀ i e, Returned cfg past i e → (∀ r, e ≠ .reported r) → Untouched cfg past i) ∧
    (∀ i r, Returned cfg past i (.reported r) →
      if r.submitted = [] then r.produced = [] ∧ Untouched cfg past i else Wrote cfg past i r) ∧
    (∀ (i : Nat) e, s.calls[i]? = some (.finished (.batch e)) → Returned cfg past i e) ∧
    (∀ p ∈ past, p.2.isInner = true → p.2.mover? = none → ∀ t, p.1.act cfg p.2 = some t →
      t.store = p.1.store) := by
  refine ⟨?_, ?_, ?_, ?_⟩
  · intro i e he hne
    obtain ⟨-, -, hdeed⟩ := (h.stood i).closed he
    cases e with
    | reported r => exact absurd rfl (hne r)
    | failed err => exact hdeed
    | overflowed ov => exact hdeed
  · intro i r he
    obtain ⟨-, -, ⟨hsub, hprod, hun⟩ | hwrote⟩ := (h.stood i).closed he
    -- the batch was idle
    · rw [if_pos hsub]
      exact ⟨hprod, hun⟩
    · rw [if_neg]
      · exact hwrote
      · obtain ⟨_, _, _, _, _, -, -, -, -, hmade, -⟩ := hwrote
        exact hmade.ne_nil
  · intro i e hi
    exact h.returned_of_answer hi
  · intro p hp hinner hmover t ht
    exact (step_of_act ht).store_of_job hinner hmover

end

/-- A batch gives up on the compiler, which makes its name later. Another batch stores what the
compiler makes of its own name and of that one. -/
def givingUp : List Action :=
  List.flatten
    [[.call (.compile [Sample.unit Sample.x] .unbounded),
        .call (.compile [Sample.unit Sample.y] ⟨none, some .zero⟩)],
      List.replicate 4 (.advance 0), List.replicate 4 (.advance 1),
      [.expire 1, .advance 1, .advance 1, .prepare 1,
        .built 1 (.output ⟨[.plain Sample.y ⟨#[7]⟩], []⟩), .prepare 0,
        .built 0 (.output ⟨[.plain Sample.y ⟨#[1]⟩, .plain Sample.x ⟨#[2]⟩,
          .plain Sample.y ⟨#[1]⟩], []⟩)],
      List.replicate 4 (.advance 0)]

theorem published_once_givingUp :
    ∃ past s, Run Sample.settings (.fresh 0 .empty none) past s ∧
      s.store.get? Sample.y = some (.plain Sample.y ⟨#[1]⟩) ∧
      s.calls[1]? = some (.finished (.batch (.failed (.timedOut .compile .zero)))) ∧
      Untouched Sample.settings past 1 ∧
      ∃ r, s.calls[0]? = some (.finished (.batch (.reported r))) ∧
        r.produced = [Sample.x, Sample.y] ∧ Wrote Sample.settings past 0 r := by
  have hperform : ((State.fresh 0 .empty none).perform Sample.settings givingUp).any fun r =>
      r.2.store.get? Sample.y = some (.plain Sample.y ⟨#[1]⟩) ∧
      r.2.calls = [.finished (.batch (.reported
          ⟨[Sample.x], [], [], [Sample.x], [Sample.x, Sample.y]⟩)),
        .finished (.batch (.failed (.timedOut .compile .zero)))] := by
    decide +kernel
  obtain ⟨past, s, hrun, hstored, hcalls⟩ := Run.of_any hperform
  have hreport : s.calls[0]? = some (.finished (.batch (.reported
      ⟨[Sample.x], [], [], [Sample.x], [Sample.x, Sample.y]⟩))) := by
    rw [hcalls]
    rfl
  have herror : s.calls[1]? = some (.finished (.batch (.failed (.timedOut .compile .zero)))) := by
    rw [hcalls]
    rfl
  obtain ⟨hfailed, hreported, hreturned, -⟩ := published_once hrun
  have hwrote := hreported 0 _ (hreturned 0 _ hreport)
  rw [if_neg (by simp)] at hwrote
  exact ⟨past, s, hrun, hstored, herror, hfailed 1 _ (hreturned 1 _ herror) (by simp), _, hreport,
    rfl, hwrote⟩

end OnDemand.Engine
