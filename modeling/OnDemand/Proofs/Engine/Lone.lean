import OnDemand.Proofs.Engine.Settlement
import OnDemand.Proofs.Engine.Steady
import OnDemand.Proofs.Failures

/-!
# A lookup while nobody else is at work

When nobody else is at work, nobody has the name that a lookup claims or that its batch claims, so
neither follows another. A run tells what it has asked of the repository and what its batch has
returned (`Log`), and a batch of one goes from its claim to its end without waiting for anyone but
the compiler (`BatchMove.alone`).
-/

namespace OnDemand.Engine

open State FlightTable

/-! ## What a run has asked of others -/

def Stage.departing? : Stage → Option Name
  | departing n _ _ => some n
  | _ => none

def State.fetch? (s : State) : Action → Option Name
  | .advance i => s.view Stage.departing? i
  | _ => none

def Action.source? : Action → Option SourceUnit
  | .fetched _ (.unit u) => some u
  | _ => none

def fetches (past : List (State × Action)) : List Name :=
  past.filterMap fun p => p.1.fetch? p.2

def sources (past : List (State × Action)) : List SourceUnit :=
  past.filterMap fun p => p.2.source?

/-- In the past the repository was asked for these names and gave these sources, and the batch of call
`i` has returned this end, if any. -/
structure Log (cfg : Settings) (past : List (State × Action)) (i : Nat) (names : List Name)
    (units : List SourceUnit) (ending : Option BatchEnd) : Prop where
  fetches : fetches past = names
  sources : sources past = units
  returned : ∀ e, Returned cfg past i e ↔ ending = some e

section
variable {cfg : Settings} {past : List (State × Action)} {s t u : State} {a : Action} {i : Nat}
  {names : List Name} {units : List SourceUnit} {ending : Option BatchEnd} {st : Stage}

theorem log_start (cfg : Settings) (i : Nat) : Log cfg [] i [] [] none where
  fetches := rfl
  sources := rfl
  returned := by simp [Returned]

theorem Log.asks (h : Log cfg past i names units ending) :
    Engine.fetches (past ++ [(s, a)]) = names ++ (s.fetch? a).toList ∧
      Engine.sources (past ++ [(s, a)]) = units ++ a.source?.toList := by
  constructor
  · rw [← h.fetches]
    cases hf : s.fetch? a <;> simp [Engine.fetches, hf]
  · rw [← h.sources]
    cases hf : a.source? <;> simp [Engine.sources, hf]

theorem Log.step (h : Log cfg past i names units ending)
    (hb : ∀ u e, s.batchMove? cfg a ≠ some (u, .inr e)) :
    Log cfg (past ++ [(s, a)]) i (names ++ (s.fetch? a).toList) (units ++ a.source?.toList) ending where
  fetches := h.asks.1
  sources := h.asks.2
  returned := by
    intro e
    rw [returned_step, h.returned]
    exact ⟨fun he => he.resolve_right fun ⟨_, u, hu⟩ => hb u e hu, Or.inl⟩

theorem Log.move (h : Log cfg past i names units ending) (hi : s.calls[i]? = some st)
    (hst : st.batch? = none) (ha : a.mover? = some i) :
    Log cfg (past ++ [(s, a)]) i (names ++ (s.fetch? a).toList) (units ++ a.source?.toList) ending := by
  refine h.step fun u e hu => ?_
  obtain ⟨j, b, hj, hb, -⟩ := State.batchMove?_mover hu
  obtain rfl := Option.some.inj (ha.symm.trans hj)
  rw [view_of_call hi, hst] at hb
  cases hb

theorem Log.advance (h : Log cfg past i names units ending) (hi : s.calls[i]? = some st)
    (hst : st.batch? = none) (hd : st.departing? = none) :
    Log cfg (past ++ [(s, .advance i)]) i names units ending := by
  have hmove := h.move hi hst (a := .advance i) rfl
  rw [State.fetch?, view_of_call hi, hd] at hmove
  simpa [Action.source?] using hmove

theorem Log.idle (h : Log cfg past i names units ending) (ha : a.mover? = none) :
    Log cfg (past ++ [(s, a)]) i names units ending := by
  have hstep := h.step (s := s) (a := a) fun u e hu => by
    obtain ⟨j, b, hj, -⟩ := State.batchMove?_mover hu
    cases ha.symm.trans hj
  have hf : s.fetch? a = none := by
    cases a with
    | advance => cases ha
    | _ => rfl
  have hsrc : a.source? = none := by
    cases a with
    | fetched => cases ha
    | _ => rfl
  rw [hf, hsrc, Option.toList_none, List.append_nil, Option.toList_none, List.append_nil] at hstep
  exact hstep

theorem Log.batch {next : BatchStage ⊕ BatchEnd} (h : Log cfg past i names units none)
    (hi : s.calls[i]? = some st) (hst : st.batch? ≠ none) (ha : a.mover? = some i)
    (hm : s.batchMove? cfg a = some (u, next)) :
    Log cfg (past ++ [(s, a)]) i names units next.getRight? := by
  -- while a batch moves the repository is neither asked nor heard
  have hf : s.fetch? a = none := by
    cases a with
    | advance j =>
      obtain rfl := Option.some.inj ha
      rw [fetch?, view_of_call hi]
      cases st with
      | departing => exact absurd rfl hst
      | _ => rfl
    | _ => rfl
  have hsrc : a.source? = none := by
    cases a with
    | fetched => cases hm
    | _ => rfl
  obtain ⟨hfetches, hsources⟩ := h.asks (s := s) (a := a)
  rw [hf, Option.toList_none, List.append_nil] at hfetches
  rw [hsrc, Option.toList_none, List.append_nil] at hsources
  refine ⟨hfetches, hsources, fun e => ?_⟩
  rw [returned_step, h.returned]
  constructor
  · rintro (he | ⟨-, u', hu'⟩)
    · cases he
    · rw [(Prod.mk.inj (Option.some.inj (hm.symm.trans hu'))).2]
      rfl
  · intro he
    obtain rfl := Sum.getRight?_eq_some_iff.mp he
    exact Or.inr ⟨ha, u, hm⟩

end

/-! ## Nobody at work -/

/-- Every call has answered, every job has returned, and nothing is held. -/
structure State.Idle (s : State) : Prop where
  settled : s.Settled
  returned : ∀ (k : Nat) j, s.jobs[k]? = some j → ∃ r, j.stage = .returned r
  resolving : s.resolving.claimed = []
  building : s.building.claimed = []
  claimant : s.claimant = none
  occupant : s.occupant = none

theorem Run.idle {cfg : Settings} {now : Moment} {store : Store} {ttl : Option Duration}
    {past : List (State × Action)} {s : State} (h : Run cfg (.fresh now store ttl) past s)
    (hs : s.Settled) (hjobs : ∀ (k : Nat) j, s.jobs[k]? = some j → ∃ r, j.stage = .returned r) :
    s.Idle where
  settled := hs
  returned := hjobs
  resolving := (hs.claimed h.orderly).1
  building := (hs.claimed h.orderly).2
  claimant := by
    refine Option.eq_none_iff_forall_ne_some.mpr fun c hc => ?_
    obtain ⟨f, hf⟩ := h.isLocked.holder hc
    obtain ⟨st, hi, hst⟩ := view_eq_some.mp hf
    obtain ⟨answer, rfl⟩ := hs c st hi
    cases hst
  occupant := by
    refine Option.eq_none_iff_forall_ne_some.mpr fun k hk => ?_
    obtain ⟨j, hj, hstage⟩ := h.occupied k hk
    obtain ⟨r, hr⟩ := hjobs k j hj
    rcases hstage with hp | ⟨p, hp⟩ <;> cases hr.symm.trans hp

theorem State.Idle.work {s : State} (h : s.Idle) : s.work = 0 := by
  have hcalls : ∀ st ∈ s.calls, Stage.work st = 0 := by
    intro st hst
    obtain ⟨i, hi⟩ := List.getElem?_of_mem hst
    obtain ⟨answer, rfl⟩ := h.settled i st hi
    rfl
  have hjobs : ∀ j ∈ s.jobs, j.stage.work = 0 := by
    intro j hj
    obtain ⟨k, hk⟩ := List.getElem?_of_mem hj
    obtain ⟨r, hr⟩ := h.returned k j hk
    rw [hr]
    rfl
  have hzero : (s.calls.map Stage.work).sum = 0 := List.sum_eq_zero_iff_forall_eq_nat.mpr (by simpa using hcalls)
  have hzero' : s.jobWork = 0 := List.sum_eq_zero_iff_forall_eq_nat.mpr (by simpa using hjobs)
  rw [State.work, hzero, hzero']

/-! ## What a batch of one does -/

/-- The store, the jobs and what is held are the same. -/
structure State.Alike (s t : State) : Prop where
  store : t.store = s.store
  jobs : t.jobs = s.jobs
  building : t.building = s.building
  claimant : t.claimant = s.claimant
  occupant : t.occupant = s.occupant

structure State.Prior (s t : State) : Prop where
  store : t.store = s.store
  jobs : t.jobs = s.jobs
  building : t.building.claimed = []
  claimant : t.claimant = none
  occupant : t.occupant = none

/-- Since `s` the compiler has been handed each of these units alone, but those whose name is stored;
they are one at most, and nobody else has the compiler while a job waits for it. -/
structure State.Handed (s t : State) (units : List SourceUnit) : Prop where
  few : units.length ≤ 1
  jobs : ∃ new, t.jobs = s.jobs ++ new ∧
    new.map (·.units) = ((units.filter fun u => !s.store.contains u.name).map fun u => [u]) ∧
    ∀ j ∈ new, j.stage = .queued → t.occupant = none

/-- What has come of a batch of `u` that has ended like this: it fails only where it has something to
compile, and then it has stored nothing. -/
def State.Ended (s t : State) (u : SourceUnit) : BatchEnd → Prop
  | .reported _ => s.Handed t [u]
  | .failed _ => s.Handed t [u] ∧ t.store = s.store
  | .overflowed _ => False

/-- How a batch of `u` that has begun in `s` stands in `t`, when nobody else is at work. -/
def BatchStage.Alone (s t : State) (u : SourceUnit) : BatchStage → Prop
  | entering units _ => units = [u] ∧ s.Prior t
  | claiming units _ rest c =>
    units = [u] ∧ c.followed = [] ∧ t.store = s.store ∧ t.jobs = s.jobs ∧ t.occupant = none ∧
      ((rest = [u.name] ∧ c.led = [] ∧ t.building.claimed = []) ∨
        (rest = [] ∧ c.led = if s.store.contains u.name then [] else [u.name]))
  | submitting b =>
    b.units = [u] ∧ b.pending = (if s.store.contains u.name then [] else [u.name]) ∧
      t.store = s.store ∧ t.jobs = s.jobs ∧ t.claimant = none ∧ t.occupant = none
  | building _ _ k _ =>
    s.Handed t [u] ∧ t.store = s.store ∧ t.claimant = none ∧ k = s.jobs.length ∧
      s.store.contains u.name = false
  | storing _ _ _ => s.Handed t [u] ∧ t.store = s.store ∧ t.claimant = none
  | releasing _ e => s.Ended t u e ∧ t.claimant = none
  | landing _ e => s.Ended t u e
  | _ => False

section
variable {cfg : Settings} {s t t' : State} {a : Action} {i : Nat} {u : SourceUnit} {b : BatchStage}
  {next : BatchStage ⊕ BatchEnd} {st st' : Stage} {units : List SourceUnit}

theorem State.Prior.congr (h : s.Prior t) (ht : t.Alike t') : s.Prior t' :=
  ⟨ht.store.trans h.store, ht.jobs.trans h.jobs, ht.building ▸ h.building,
    ht.claimant.trans h.claimant, ht.occupant.trans h.occupant⟩

theorem State.handed_nothing (hj : t.jobs = s.jobs) (hfew : units.length ≤ 1)
    (hstored : units.filter (fun u => !s.store.contains u.name) = []) : s.Handed t units where
  few := hfew
  jobs := ⟨[], by simpa using hj, by simp [hstored], by simp⟩

theorem State.Handed.congr (h : s.Handed t units) (hj : t'.jobs = t.jobs)
    (ho : t'.occupant = t.occupant) : s.Handed t' units := by
  obtain ⟨new, hjobs, hunits, hfree⟩ := h.jobs
  exact ⟨h.few, new, hj.trans hjobs, hunits, fun j hmem hq => ho.trans (hfree j hmem hq)⟩

theorem State.Handed.job (h : s.Handed t [u]) (hu : s.store.contains u.name = false) :
    ∃ j, t.jobs[s.jobs.length]? = some j ∧ (j.stage = .queued → t.occupant = none) := by
  obtain ⟨new, hjobs, hunits, hfree⟩ := h.jobs
  rw [List.filter_cons_of_pos (by simp [hu]), List.filter_nil, List.map_singleton,
    List.map_eq_singleton_iff] at hunits
  obtain ⟨j, rfl, -⟩ := hunits
  exact ⟨j, by simp [hjobs], hfree j (by simp)⟩

theorem State.Ended.congr {e : BatchEnd} (h : s.Ended t u e) (hj : t'.jobs = t.jobs)
    (ho : t'.occupant = t.occupant) (hs : t'.store = t.store) : s.Ended t' u e := by
  cases e with
  | reported r => exact State.Handed.congr h hj ho
  | failed err => exact ⟨h.1.congr hj ho, hs.trans h.2⟩
  | overflowed o => exact h

theorem BatchStage.Alone.congr (h : b.Alone s t u) (ht : t.Alike t') : b.Alone s t' u := by
  cases b with
  | entering => exact ⟨h.1, h.2.congr ht⟩
  | claiming =>
    simp only [BatchStage.Alone, ht.store, ht.jobs, ht.building, ht.occupant] at h ⊢
    exact h
  | submitting =>
    simp only [BatchStage.Alone, ht.store, ht.jobs, ht.claimant, ht.occupant] at h ⊢
    exact h
  | building =>
    obtain ⟨hhanded, hstore, hclaimant, hrest⟩ := h
    exact ⟨hhanded.congr ht.jobs ht.occupant, ht.store.trans hstore, ht.claimant.trans hclaimant, hrest⟩
  | storing =>
    obtain ⟨hhanded, hstore, hclaimant⟩ := h
    exact ⟨hhanded.congr ht.jobs ht.occupant, ht.store.trans hstore, ht.claimant.trans hclaimant⟩
  | releasing => exact ⟨h.1.congr ht.jobs ht.occupant ht.store, ht.claimant.trans h.2⟩
  | landing => exact State.Ended.congr h ht.jobs ht.occupant ht.store
  | _ => exact h

def AloneNext (s t : State) (u : SourceUnit) (next : BatchStage ⊕ BatchEnd) : Prop :=
  next.elim (BatchStage.Alone s t u) (s.Ended t u)

theorem alone_endBatch {c : Claims} {e : BatchEnd} (h : s.Ended t u e) (hc : t.claimant = none) :
    AloneNext s t u (endBatch c e) := by
  unfold endBatch
  split
  · exact ⟨h, hc⟩
  · exact h

theorem submission_single {b : Batch} (hunits : b.units = [u])
    (hpending : b.pending = if s.store.contains u.name then [] else [u.name]) :
    b.submission = [u].filter fun u => !s.store.contains u.name := by
  cases hn : s.store.contains u.name <;>
    simp [Batch.submission, Batch.submission.firsts, hunits, hpending, hn]

theorem State.Quiet.alike (h : t.Quiet t') : t.Alike t' :=
  ⟨h.store, h.jobs, h.building, h.claimant, h.occupant⟩

/-- A batch of one goes on, or ends, as it does when nobody else is at work. -/
theorem BatchMove.alone (hm : BatchMove cfg t i a b t' next) (hb : b.Alone s t u) :
    AloneNext s t' u next := by
  cases hm with
  | enter hc =>
    obtain ⟨rfl, hprior⟩ := hb
    exact ⟨rfl, rfl, hprior.store, hprior.jobs, hprior.occupant,
      Or.inl ⟨rfl, rfl, hprior.building⟩⟩
  | follow hf =>
    -- nobody has a name in flight for a batch, so there is nothing to follow
    obtain ⟨-, -, -, -, -, ⟨-, -, hfree⟩ | ⟨hrest, -⟩⟩ := hb
    · rw [flightOf?, hfree] at hf
      cases hf
    · cases hrest
  | skip _ hstored =>
    obtain ⟨hunits, hfollowed, hstore, hjobs, hocc, ⟨hrest, hled, -⟩ | ⟨hrest, -⟩⟩ := hb
    · obtain ⟨rfl, rfl⟩ := List.cons.inj hrest
      rw [hstore] at hstored
      refine ⟨hunits, hfollowed, hstore, hjobs, hocc, Or.inr ⟨rfl, ?_⟩⟩
      rw [if_pos hstored]
      exact hled
    · cases hrest
  | lead _ hlacking =>
    obtain ⟨hunits, hfollowed, hstore, hjobs, hocc, ⟨hrest, hled, -⟩ | ⟨hrest, -⟩⟩ := hb
    · obtain ⟨rfl, rfl⟩ := List.cons.inj hrest
      rw [hstore] at hlacking
      refine ⟨hunits, hfollowed, hstore, hjobs, hocc, Or.inr ⟨rfl, ?_⟩⟩
      rw [hlacking]
      simp [hled]
    · cases hrest
  | @claimed units limits c next ho =>
    obtain ⟨hunits, hfollowed, hstore, hjobs, hocc, ⟨hrest, -⟩ | ⟨-, hled⟩⟩ := hb
    · cases hrest
    · rw [hfollowed] at ho
      cases ho
      exact ⟨hunits, hled, hstore, hjobs, rfl, hocc⟩
  | idle hs hq =>
    obtain ⟨hunits, hpending, hstore, hjobs, hclaimant, hocc⟩ := hb
    rw [submission_single hunits hpending] at hs
    exact alone_endBatch (e := .reported _) (handed_nothing (hq.jobs.trans hjobs) (by simp) hs)
      (hq.claimant.trans hclaimant)
  | @submit b hs =>
    obtain ⟨hunits, hpending, hstore, hjobs, hclaimant, hocc⟩ := hb
    have hsub := submission_single hunits hpending
    cases hn : s.store.contains u.name with
    | true =>
      rw [hsub] at hs
      simp [hn] at hs
    | false =>
      refine ⟨⟨by simp, _, by rw [hjobs], ?_, fun _ _ _ => hocc⟩, hstore, hclaimant, by rw [hjobs], hn⟩
      rw [List.map_singleton, hsub]
      simp [hn]
  | receive =>
    obtain ⟨hhanded, hstore, hclaimant, -⟩ := hb
    exact ⟨hhanded, hstore, hclaimant⟩
  | fail _ _ _ hq =>
    obtain ⟨hhanded, hstore, hclaimant, -⟩ := hb
    exact alone_endBatch ⟨hhanded.congr hq.jobs hq.occupant, hq.store.trans hstore⟩
      (hq.claimant.trans hclaimant)
  | keep =>
    obtain ⟨hhanded, -, hclaimant⟩ := hb
    exact alone_endBatch (e := .reported _) (hhanded.congr rfl rfl) hclaimant
  | conflict _ hq =>
    obtain ⟨hhanded, hstore, hclaimant⟩ := hb
    exact alone_endBatch ⟨hhanded.congr hq.jobs hq.occupant, hq.store.trans hstore⟩
      (hq.claimant.trans hclaimant)
  | release => exact State.Ended.congr hb.1 rfl rfl rfl
  | land => exact State.Ended.congr hb rfl rfl rfl
  | expireBuild hq =>
    obtain ⟨hhanded, hstore, hclaimant, -⟩ := hb
    exact alone_endBatch ⟨hhanded.congr hq.jobs hq.occupant, hq.store.trans hstore⟩
      (hq.claimant.trans hclaimant)
  | _ => exact False.elim hb

theorem BatchStage.Alone.canStep (h : b.Alone s t u) (hb : t.view Stage.batch? i = some b) :
    t.CanStep cfg i := by
  cases b with
  | entering => exact .of_batch hb (fun _ => h.2.claimant) (by simp) (by simp)
  | following => exact h.elim
  | checking => exact h.elim
  | building b submitted k deadline =>
    obtain ⟨hhanded, -, -, rfl, hn⟩ := h
    obtain ⟨j, hj, hq⟩ := hhanded.job hn
    exact .of_job hb hj hq
  | releasing => exact .of_batch hb (fun _ => h.2) (by simp) (by simp)
  | _ => exact .of_batch hb False.elim (by simp) (by simp)

/-! ## What a job does -/

structure State.JobStep (s t : State) (k : Nat) (j : Job) (stage : JobStage) : Prop where
  before : s.jobs[k]? = some j
  working : ∀ r, j.stage ≠ .returned r
  begun : stage ≠ .queued
  jobs : t.jobs = (s.setJob k stage).jobs
  calls : t.calls = s.calls
  store : t.store = s.store
  resolving : t.resolving = s.resolving
  claimant : t.claimant = s.claimant

theorem Step.jobStep (h : Step cfg s a t) (ha : a.isInner = true) (hm : a.mover? = none) :
    ∃ k j stage, s.JobStep t k j stage := by
  cases h with
  | call => cases ha
  | move _ hcall => cases hm.symm.trans hcall.mover
  | occupy hj hs => exact ⟨_, _, _, hj, by simp [hs], by simp, rfl, rfl, rfl, rfl, rfl⟩
  | @launch k j processors u hj hs hq =>
    refine ⟨k, j, .running processors, hj, by simp [hs], by simp, ?_, hq.calls, hq.store,
      hq.resolving, hq.claimant⟩
    rw [State.setJob, hq.jobs]
    rfl
  | built reply hj hs => exact ⟨_, _, _, hj, by simp [hs], by simp, rfl, rfl, rfl, rfl, rfl⟩
  | founder hj _ hs =>
    refine ⟨_, _, _, hj, ?_, by simp, rfl, rfl, rfl, rfl, rfl⟩
    rcases hs with hs | hs <;> simp [hs]
  | put => cases ha
  | putAll => cases ha
  | quiet hquiet =>
    rw [hquiet] at ha
    cases ha

variable {k : Nat} {j : Job} {stage : JobStage}

theorem State.JobStep.new (h : t.JobStep t' k j stage) (hs : s.Idle) : s.jobs[k]? ≠ some j := by
  intro hj
  obtain ⟨r, hr⟩ := hs.returned k j hj
  exact h.working r hr

theorem State.Prior.jobStep (h : s.Prior t) (hs : s.Idle) : ¬ t.JobStep t' k j stage := by
  intro hstep
  exact hstep.new hs (h.jobs ▸ hstep.before)

theorem State.Handed.jobStep (h : s.Handed t units) (hs : s.Idle) (hstep : t.JobStep t' k j stage) :
    s.Handed t' units := by
  obtain ⟨new, hjobs, hunits, -⟩ := h.jobs
  have hfew : new.length ≤ 1 := by
    have hlen := congrArg List.length hunits
    rw [List.length_map, List.length_map] at hlen
    exact hlen ▸ Nat.le_trans (List.length_filter_le _ _) h.few
  have hbefore := hstep.before
  rw [hjobs] at hbefore
  rcases Nat.lt_or_ge k s.jobs.length with hk | hk
  · rw [List.getElem?_append_left hk] at hbefore
    exact absurd hbefore (hstep.new hs)
  · -- the job that goes on is the one that has been handed
    rw [List.getElem?_append_right hk] at hbefore
    have hlt := (List.getElem?_eq_some_iff.mp hbefore).1
    obtain rfl : k = s.jobs.length := by omega
    obtain ⟨j', rfl⟩ := List.length_eq_one_iff.mp (show new.length = 1 by omega)
    obtain rfl : j' = j := by simpa using hbefore
    refine ⟨h.few, [{ j' with stage := stage }], ?_, hunits, ?_⟩
    · rw [hstep.jobs, jobs_setJob hstep.before, hjobs]
      simp
    · intro j hmem hq
      obtain rfl := List.mem_singleton.mp hmem
      exact absurd hq hstep.begun

theorem BatchStage.Alone.jobStep (h : b.Alone s t u) (hs : s.Idle)
    (hstep : t.JobStep t' k j stage) : b.Alone s t' u := by
  -- before the batch has handed its unit over, there is no job that could go on
  have hold : t.jobs = s.jobs → False := fun hjobs => hstep.new hs (hjobs ▸ hstep.before)
  have hended : ∀ {e}, s.Ended t u e → s.Ended t' u e := by
    intro e he
    cases e with
    | reported r => exact State.Handed.jobStep he hs hstep
    | failed err => exact ⟨he.1.jobStep hs hstep, hstep.store.trans he.2⟩
    | overflowed o => exact he
  cases b with
  | entering => exact (hold h.2.jobs).elim
  | claiming =>
    obtain ⟨-, -, -, hjobs, -⟩ := h
    exact (hold hjobs).elim
  | submitting =>
    obtain ⟨-, -, -, hjobs, -⟩ := h
    exact (hold hjobs).elim
  | building =>
    obtain ⟨hhanded, hstore, hclaimant, hrest⟩ := h
    exact ⟨hhanded.jobStep hs hstep, hstep.store.trans hstore, hstep.claimant.trans hclaimant, hrest⟩
  | storing =>
    obtain ⟨hhanded, hstore, hclaimant⟩ := h
    exact ⟨hhanded.jobStep hs hstep, hstep.store.trans hstore, hstep.claimant.trans hclaimant⟩
  | releasing => exact ⟨hended h.1, hstep.claimant.trans h.2⟩
  | landing => exact hended h
  | _ => exact h

end

end OnDemand.Engine
