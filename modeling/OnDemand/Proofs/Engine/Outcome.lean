import OnDemand.Proofs.Engine.Agreement
import OnDemand.Proofs.Engine.Lone

/-!
# The outcome of one lookup

While nobody else is at work, a lookup asks the repository for its name exactly if the name is not
stored, is remote and has no failure remembered, and what it answers agrees with what is stored then
(`lookup_alone`). `Standing` says for each stage of the lookup what it has asked of others by then and
what it has changed; the lookup goes from one to the next by its own moves, and stays where it is when
its job goes on or time passes.
-/

namespace OnDemand.Engine

open State FlightTable

/-! ## What is remembered -/

/-- At moment `m` a lookup of `n` that has begun in `s` has to go to the repository. -/
structure Wanted (cfg : Settings) (s : State) (n : Name) (m : Moment) : Prop where
  lacking : s.store.get? n = none
  isRemote : cfg.isRemote n = true
  forgotten : s.remembered? m n = none

def Noted (now : Moment) (n : Name) (f : Failures) : Resolution → Failures → Prop
  | .failed e, f' => f.record now n e = (f', .ok ())
  | _, f' => f' = f

def State.Recorded (s : State) (n : Name) (m : Moment) (r : Resolution) (t : State) : Prop :=
  (s.failures = none → t.failures = none) ∧
    ∀ f, s.failures = some f → ∃ f' m', m ≤ m' ∧ m' ≤ t.now ∧ t.failures = some f' ∧
      Noted m' n (f.lookup m n).2 r f'

def LookedAt (past : List (State × Action)) (i : Nat) (n : Name) (m : Moment) : Prop :=
  ∃ u limits, (u, .advance i) ∈ past ∧ u.calls[i]? = some (.remembering n limits) ∧ u.now = m

/-! ## Where a lookup stands -/

structure Untried (cfg : Settings) (s : State) (past : List (State × Action)) (t : State)
    (failures : Option Failures) : Prop where
  prior : s.Prior t
  free : t.resolving.claimed = []
  failures : t.failures = failures
  log : Log cfg past s.calls.length [] [] none

/-- The lookup has looked for a remembered failure at `m`, and has found this. -/
structure Sought (cfg : Settings) (s : State) (n : Name) (past : List (State × Action)) (t : State)
    (m : Moment) (memory : Option CallError) : Prop where
  lacking : s.store.get? n = none
  isRemote : cfg.isRemote n = true
  since : s.now ≤ m
  upto : m ≤ t.now
  looked : LookedAt past s.calls.length n m
  remembered : s.remembered? m n = memory

/-- The result of an attempt: it has failed and changed nothing, or its batch has returned a report
and the result is what the store says. -/
inductive Judged (cfg : Settings) (s : State) (n : Name) (past : List (State × Action)) (t : State)
    (r : Resolution) : Prop where
  | failed {units ending} (e : CallError) : r = .failed e →
      Log cfg past s.calls.length [n] units ending → s.Handed t units →
      (∀ report, ending ≠ some (.reported report)) → t.store = s.store → Judged cfg s n past t r
  | read {u report} : r = .ofOption (t.store.get? n) →
      Log cfg past s.calls.length [n] [u] (some (.reported report)) → s.Handed t [u] →
      Judged cfg s n past t r

/-- Where a lookup of `n` that has begun in `s` stands in `t`, when nobody else is at work. -/
inductive Standing (cfg : Settings) (s : State) (n : Name) (past : List (State × Action)) (t : State) :
    Stage → Prop where
  | looking {limits} : Untried cfg s past t s.failures → Standing cfg s n past t (.looking n limits)
  | missed {limits} : s.store.get? n = none → Untried cfg s past t s.failures →
      Standing cfg s n past t (.missed n limits)
  | remembering {limits} : s.store.get? n = none → cfg.isRemote n = true →
      Untried cfg s past t s.failures → Standing cfg s n past t (.remembering n limits)
  | claiming {limits m} : Sought cfg s n past t m none → Untried cfg s past t (s.looked m n) →
      Standing cfg s n past t (.claiming n limits)
  | departing {limits g m} : Sought cfg s n past t m none → s.Prior t → t.failures = s.looked m n →
      Log cfg past s.calls.length [] [] none → Standing cfg s n past t (.departing n limits g)
  | fetching {limits g deadline m} : Sought cfg s n past t m none → s.Prior t →
      t.failures = s.looked m n → Log cfg past s.calls.length [n] [] none →
      Standing cfg s n past t (.fetching n limits g deadline)
  | compiling {g b u m} : Sought cfg s n past t m none → b.Alone s t u → t.failures = s.looked m n →
      Log cfg past s.calls.length [n] [u] none → Standing cfg s n past t (.compiling n g b)
  | rechecking {g u report m} : Sought cfg s n past t m none → s.Handed t [u] →
      t.failures = s.looked m n → Log cfg past s.calls.length [n] [u] (some (.reported report)) →
      Standing cfg s n past t (.rechecking n g)
  | recording {g r m} : Sought cfg s n past t m none → Judged cfg s n past t r →
      t.failures = s.looked m n → Standing cfg s n past t (.recording n g r)
  | releasing {g r m} : Sought cfg s n past t m none → Judged cfg s n past t r → s.Recorded n m r t →
      Standing cfg s n past t (.releasing g (.resolved r))
  | landing {g r m} : Sought cfg s n past t m none → Judged cfg s n past t r → s.Recorded n m r t →
      Standing cfg s n past t (.landing g (.resolved r))
  | attempted {r m} : Sought cfg s n past t m none → Judged cfg s n past t r → s.Recorded n m r t →
      Standing cfg s n past t (resolved r)
  | stored {x} : s.store.get? n = some x → Untried cfg s past t s.failures →
      Standing cfg s n past t (resolved (.found x))
  | foreign : s.store.get? n = none → cfg.isRemote n = false → Untried cfg s past t s.failures →
      Standing cfg s n past t (resolved .absent)
  | recalled {m e} : Sought cfg s n past t m (some e) → Untried cfg s past t (s.looked m n) →
      Standing cfg s n past t (resolved (.failed e))

section
variable {cfg : Settings} {s t t' u : State} {n : Name} {past past' : List (State × Action)}
  {a : Action} {m : Moment} {r : Resolution} {st st' : Stage} {limits : Limits}
  {memory : Option CallError}

theorem Sought.later (h : Sought cfg s n past t m memory) (hnow : t.now ≤ t'.now)
    (p : State × Action) : Sought cfg s n (past ++ [p]) t' m memory where
  lacking := h.lacking
  isRemote := h.isRemote
  since := h.since
  upto := Nat.le_trans h.upto hnow
  looked := by
    obtain ⟨u, limits, hu, hrest⟩ := h.looked
    exact ⟨u, limits, List.mem_append_left _ hu, hrest⟩
  remembered := h.remembered

theorem Sought.wanted (h : Sought cfg s n past t m none) : Wanted cfg s n m :=
  ⟨h.lacking, h.isRemote, h.remembered⟩

theorem State.Recorded.later (h : s.Recorded n m r t) (hf : t'.failures = t.failures)
    (hnow : t.now ≤ t'.now) : s.Recorded n m r t' := by
  refine ⟨fun hnone => hf.trans (h.1 hnone), fun f hsome => ?_⟩
  obtain ⟨f', m', hm, hm', hf', hnoted⟩ := h.2 f hsome
  exact ⟨f', m', hm, Nat.le_trans hm' hnow, hf.trans hf', hnoted⟩

theorem Judged.later (h : Judged cfg s n past t r) (hs : t'.store = t.store)
    (hhanded : ∀ {units}, s.Handed t units → s.Handed t' units)
    (hlog : ∀ {names units ending}, Log cfg past s.calls.length names units ending →
      Log cfg past' s.calls.length names units ending) : Judged cfg s n past' t' r := by
  cases h with
  | failed e hr hl hh hend hstore => exact .failed e hr (hlog hl) (hhanded hh) hend (hs.trans hstore)
  | read hr hl hh => exact .read (by rw [hr, hs]) (hlog hl) (hhanded hh)

/-! ## While the lookup stays where it is -/

structure State.Drift (t t' : State) : Prop where
  now : t.now ≤ t'.now
  failures : t'.failures = t.failures
  resolving : t'.resolving = t.resolving
  work : t.Alike t' ∨ ∃ k j stage, t.JobStep t' k j stage

theorem State.Drift.store (h : t.Drift t') : t'.store = t.store := by
  rcases h.work with ha | ⟨k, j, stage, hj⟩
  · exact ha.store
  · exact hj.store

theorem State.Prior.drift (h : s.Prior t) (hs : s.Idle) (hd : t.Drift t') : s.Prior t' := by
  rcases hd.work with ha | ⟨k, j, stage, hj⟩
  · exact h.congr ha
  · exact absurd hj (h.jobStep hs)

theorem State.Handed.drift {units : List SourceUnit} (h : s.Handed t units) (hs : s.Idle)
    (hd : t.Drift t') : s.Handed t' units := by
  rcases hd.work with ha | ⟨k, j, stage, hj⟩
  · exact h.congr ha.jobs ha.occupant
  · exact h.jobStep hs hj

theorem BatchStage.Alone.drift {b : BatchStage} {u : SourceUnit} (h : b.Alone s t u) (hs : s.Idle)
    (hd : t.Drift t') : b.Alone s t' u := by
  rcases hd.work with ha | ⟨k, j, stage, hj⟩
  · exact h.congr ha
  · exact h.jobStep hs hj

theorem Standing.drift (h : Standing cfg s n past t st) (hs : s.Idle) (hd : t.Drift t')
    (ha : a.mover? = none) : Standing cfg s n (past ++ [(t, a)]) t' st := by
  -- others touch nothing that a standing speaks of
  have hlog : ∀ {names units ending}, Log cfg past s.calls.length names units ending →
      Log cfg (past ++ [(t, a)]) s.calls.length names units ending := fun h => h.idle ha
  have hun : ∀ {f}, Untried cfg s past t f → Untried cfg s (past ++ [(t, a)]) t' f := fun h =>
    ⟨h.prior.drift hs hd, by rw [hd.resolving]; exact h.free, hd.failures.trans h.failures, hlog h.log⟩
  have hsought : ∀ {m memory}, Sought cfg s n past t m memory →
      Sought cfg s n (past ++ [(t, a)]) t' m memory := fun h => h.later hd.now _
  have hjudged : ∀ {r}, Judged cfg s n past t r → Judged cfg s n (past ++ [(t, a)]) t' r := fun h =>
    h.later hd.store (fun hh => hh.drift hs hd) hlog
  have hrecorded : ∀ {m r}, s.Recorded n m r t → s.Recorded n m r t' := fun h =>
    h.later hd.failures hd.now
  cases h with
  | looking hu => exact .looking (hun hu)
  | missed hn hu => exact .missed hn (hun hu)
  | remembering hn hr hu => exact .remembering hn hr (hun hu)
  | claiming ht hu => exact .claiming (hsought ht) (hun hu)
  | departing ht hp hf hl =>
    exact .departing (hsought ht) (hp.drift hs hd) (hd.failures.trans hf) (hlog hl)
  | fetching ht hp hf hl =>
    exact .fetching (hsought ht) (hp.drift hs hd) (hd.failures.trans hf) (hlog hl)
  | compiling ht hb hf hl =>
    exact .compiling (hsought ht) (hb.drift hs hd) (hd.failures.trans hf) (hlog hl)
  | rechecking ht hh hf hl =>
    exact .rechecking (hsought ht) (hh.drift hs hd) (hd.failures.trans hf) (hlog hl)
  | recording ht hj hf => exact .recording (hsought ht) (hjudged hj) (hd.failures.trans hf)
  | releasing ht hj hr => exact .releasing (hsought ht) (hjudged hj) (hrecorded hr)
  | landing ht hj hr => exact .landing (hsought ht) (hjudged hj) (hrecorded hr)
  | attempted ht hj hr => exact .attempted (hsought ht) (hjudged hj) (hrecorded hr)
  | stored hx hu => exact .stored hx (hun hu)
  | foreign hn hr hu => exact .foreign hn hr (hun hu)
  | recalled ht hu => exact .recalled (hsought ht) (hun hu)

/-! ## When the lookup goes on -/

theorem record_noted {f : Failures} (hf : s.failures = some f)
    (hr : (s.record n r).2 = .resolved r) :
    ∃ f', (s.record n r).1.failures = some f' ∧ Noted s.now n f r f' := by
  cases r with
  | failed e =>
    simp only [State.record, hf] at hr ⊢
    rcases hrec : f.record s.now n e with ⟨f', _ | ⟨⟩⟩
    · rw [hrec] at hr
      cases hr
    · exact ⟨f', rfl, hrec⟩
  | _ => exact ⟨f, by simp [State.record, hf], rfl⟩

theorem record_failures_none (hf : s.failures = none) : (s.record n r).1.failures = none := by
  simp [State.record, hf]

theorem recorded_record (hf : t.failures = s.looked m n) (hm : m ≤ t.now)
    (hr : (t.record n r).2 = .resolved r) : s.Recorded n m r (t.record n r).1 := by
  constructor
  · intro hnone
    refine record_failures_none (hf.trans ?_)
    rw [State.looked, hnone, Option.map_none]
  · intro f hsome
    have hlooked : t.failures = some (f.lookup m n).2 := by
      rw [hf, State.looked, hsome, Option.map_some]
    obtain ⟨f', hf', hnoted⟩ := record_noted hlooked hr
    exact ⟨f', t.now, hm, Nat.le_of_eq (now_record t n r).symm, hf', hnoted⟩

theorem State.Prior.judged (h : s.Prior t) (hl : Log cfg past s.calls.length [n] [] none)
    (e : CallError) : Judged cfg s n past t (.failed e) :=
  .failed e rfl hl (handed_nothing h.jobs (Nat.zero_le _) rfl) (by simp) h.store

theorem Apart.alike (h : Apart t u st st') (i : Nat) (st₁ : Stage) : t.Alike (u.setCall i st₁) :=
  ⟨h.store, h.jobs, h.building, h.claimant, h.occupant⟩

theorem Untried.later {f f' : Option Failures} (h : Untried cfg s past t f) (ha : t.Alike t')
    (hfree : t'.resolving = t.resolving) (hf : t'.failures = f')
    (hlog : Log cfg past' s.calls.length [] [] none) : Untried cfg s past' t' f' where
  prior := h.prior.congr ha
  free := by
    rw [hfree]
    exact h.free
  failures := hf
  log := hlog

theorem act_fetched_unit {i : Nat} {g : Guard} {deadline : Option Moment}
    (hi : t.calls[i]? = some (.fetching n limits g deadline)) (x : SourceUnit) :
    t.act cfg (.fetched i (.unit x)) =
      some ((t.tell (.fetched n true)).setCall i (.compiling n g (.entering [x] limits))) := by
  simp [act, hi, receiveFetch, moveCall]

theorem Action.isInner_of_mover? {i : Nat} (h : a.mover? = some i) : a.isInner = true := by
  cases a with
  | advance => rfl
  | expire => rfl
  | fetched => rfl
  | _ => cases h

/-- Outside its batch a lookup goes from one standing to the next. -/
theorem Standing.move (h : Standing cfg s n past t st) (hi : t.calls[s.calls.length]? = some st)
    (hact : t.act cfg a = some (u.setCall s.calls.length st'))
    (hm : CallMove cfg t s.calls.length a st u st') (hst : st.batch? = none) (hnow : s.now ≤ t.now)
    (hno : ¬ t.Outlasts a) :
    Standing cfg s n (past ++ [(t, a)]) (u.setCall s.calls.length st') st' := by
  have hap : Apart t u st st' := by
    rcases hm.batch_or_apart with ⟨b, next, hb, -⟩ | hap
    · rw [hst] at hb
      cases hb
    · exact hap
  have halike := hap.alike s.calls.length st'
  have hhanded : ∀ {units}, s.Handed t units → s.Handed (u.setCall s.calls.length st') units :=
    fun h => h.congr halike.jobs halike.occupant
  have hsteady : ¬ st.Remembers → t.Steady (u.setCall s.calls.length st') := by
    intro hr
    refine act_steady hact (Action.isInner_of_mover? hm.mover) fun j st₁ ha hj => ?_
    subst ha
    obtain rfl := Option.some.inj hm.mover
    obtain rfl := Option.some.inj (hi.symm.trans hj)
    exact hr
  have hlater : t.now ≤ (u.setCall s.calls.length st').now :=
    Nat.le_of_eq (act_now hact (Action.isInner_of_mover? hm.mover)).symm
  have hsought : ∀ {m memory}, Sought cfg s n past t m memory →
      Sought cfg s n (past ++ [(t, a)]) (u.setCall s.calls.length st') m memory :=
    fun h => h.later hlater _
  cases h with
  | looking hu =>
    have hs := hsteady id
    cases hm with
    | hit hx =>
      exact .stored (hu.prior.store ▸ hx) (hu.later halike (quiet_tellLookup _ _ _).resolving
        (hs.failures.trans hu.failures) (hu.log.advance hi rfl rfl))
    | miss hn =>
      exact .missed (hu.prior.store ▸ hn) (hu.later halike rfl (hs.failures.trans hu.failures)
        (hu.log.advance hi rfl rfl))
  | missed hn hu =>
    have hs := hsteady id
    cases hm with
    | isRemote hr =>
      exact .remembering hn hr (hu.later halike (quiet_tellLookup _ _ _).resolving
        (hs.failures.trans hu.failures) (hu.log.advance hi rfl rfl))
    | isLocal hr =>
      exact .foreign hn hr (hu.later halike (quiet_tellLookup _ _ _).resolving
        (hs.failures.trans hu.failures) (hu.log.advance hi rfl rfl))
  | remembering hn hr hu =>
    obtain ⟨rfl, hfree, hlooked, hfound⟩ := hm.looks
    have hun := hu.later halike hfree hlooked (hu.log.advance hi rfl rfl)
    rw [State.looked, hu.failures] at hun
    rw [State.remembered?, hu.failures] at hfound
    -- the moment of the look is now
    rcases hfound with ⟨hnone, rfl⟩ | ⟨e, hsome, rfl⟩
    · exact .claiming ⟨hn, hr, hnow, hlater, ⟨t, _, by simp, hi, rfl⟩, hnone⟩ hun
    · exact .recalled ⟨hn, hr, hnow, hlater, ⟨t, _, by simp, hi, rfl⟩, hsome⟩ hun
  | claiming ht hu =>
    have hs := hsteady id
    -- nobody has the name in flight, and the store lacks it: the lookup leads
    cases hm with
    | follow hf =>
      rw [flightOf?, hu.free] at hf
      cases hf
    | followOverflow hf =>
      rw [flightOf?, hu.free] at hf
      cases hf
    | skip _ hstored =>
      obtain ⟨x, hx⟩ := Store.get?_of_contains (hu.prior.store ▸ hstored)
      cases hx.symm.trans ht.lacking
    | lead =>
      exact .departing (hsought ht) (hu.prior.congr halike)
        (hs.failures.trans hu.failures) (hu.log.advance hi rfl rfl)
  | departing ht hp hf hl =>
    have hs := hsteady id
    cases hm with
    | depart =>
      have hlog := hl.move hi rfl (a := .advance s.calls.length) rfl
      rw [State.fetch?, view_of_call hi] at hlog
      exact .fetching (hsought ht) (hp.congr halike) (hs.failures.trans hf) hlog
  | fetching ht hp hf hl =>
    have hfailures := (hsteady id).failures.trans hf
    have hprior := hp.congr halike
    have hlog := hl.move hi rfl hm.mover
    cases hm with
    | expireFetch => exact .recording (hsought ht) (hprior.judged hlog _) hfailures
    | fetched => exact .compiling (hsought ht) ⟨rfl, hprior⟩ hfailures hlog
    | @unfetched _ _ _ _ reply _ _ hq =>
      cases reply with
      | unit x =>
        -- a source is not a failure
        have hi' : u.calls[s.calls.length]? = some _ := (congrArg (·[s.calls.length]?) hq.calls).trans hi
        have hcalls := congrArg (fun v : State => v.calls[s.calls.length]?)
          (Option.some.inj ((act_fetched_unit hi x).symm.trans hact))
        rw [calls_setCall (s := t.tell _) hi, calls_setCall hi', if_pos rfl, if_pos rfl] at hcalls
        cases hcalls
      | _ => exact .recording (hsought ht) (hprior.judged hlog _) hfailures
  | compiling => cases hst -- its batch makes the move, as `Standing.batch` says
  | rechecking ht hh hf hl =>
    have hs := hsteady id
    cases hm with
    | recheck =>
      refine .recording (hsought ht) (.read ?_ (hl.advance hi rfl rfl) (hhanded hh))
        (hs.failures.trans hf)
      rw [halike.store, read_snd]
  | @recording g r m ht hj hf =>
    cases hm with
    | record =>
      -- the expiry is on the clock, so the lookup goes on with its result
      have hr := record_lands hi hno
      have hrecorded := recorded_record hf ht.upto hr
      rw [hr] at halike hhanded hsought ⊢
      exact .releasing (hsought ht) (hj.later halike.store hhanded fun hl => hl.advance hi rfl rfl)
        (hrecorded.later rfl (Nat.le_refl _))
  | releasing ht hj hr =>
    have hs := hsteady id
    cases hm with
    | release =>
      exact .landing (hsought ht) (hj.later halike.store hhanded fun hl => hl.advance hi rfl rfl)
        (hr.later hs.failures hlater)
  | landing ht hj hr =>
    have hs := hsteady id
    cases hm with
    | land =>
      exact .attempted (hsought ht) (hj.later halike.store hhanded fun hl => hl.advance hi rfl rfl)
        (hr.later hs.failures hlater)
  | _ => cases hm

theorem Standing.batch {b : BatchStage} {g : Guard} {n' : Name}
    (h : Standing cfg s n past t (.compiling n' g b))
    (hi : t.calls[s.calls.length]? = some (.compiling n' g b)) (hact : t.act cfg a = some t')
    (ha : a.mover? = some s.calls.length) :
    ∃ (u : State) (st' : Stage), t' = u.setCall s.calls.length st' ∧ u.calls = t.calls ∧
      Standing cfg s n (past ++ [(t, a)]) t' st' := by
  obtain ⟨u, next, hbm, hm, rfl⟩ := State.batchMove?_of_act hi rfl ha hact
  -- a batch inside a lookup touches neither the clock nor what is remembered
  have hs : t.Steady (u.setCall s.calls.length ((Stage.compiling n' g b).resume next)) := by
    refine act_steady hact (Action.isInner_of_mover? ha) fun j st₁ hj hst₁ => ?_
    subst hj
    obtain rfl := Option.some.inj ha
    obtain rfl := Option.some.inj (hi.symm.trans hst₁)
    exact id
  refine ⟨u, _, rfl, hm.frame.calls, ?_⟩
  cases h with
  | compiling ht hb hf hl =>
    have hsought := ht.later (Nat.le_of_eq hs.now.symm) (t, a)
    have hfailures := hs.failures.trans hf
    have hlog := hl.batch hi (by simp [Stage.batch?]) ha hbm
    have hnext := hm.alone hb
    rcases next with b' | e
    · exact .compiling hsought (BatchStage.Alone.congr hnext ⟨rfl, rfl, rfl, rfl, rfl⟩) hfailures hlog
    · cases e with
      | reported report => exact .rechecking hsought (State.Handed.congr hnext rfl rfl) hfailures hlog
      | failed e =>
        exact .recording hsought (.failed e rfl hlog (hnext.1.congr rfl rfl) (by simp) hnext.2) hfailures
      | overflowed o => exact hnext.elim

/-! ## Runs -/

structure Lone (cfg : Settings) (s : State) (n : Name) (past : List (State × Action)) (t : State)
    (st : Stage) : Prop where
  calls : t.calls = s.calls ++ [st]
  now : s.now ≤ t.now
  standing : Standing cfg s n past t st

theorem Lone.call (h : Lone cfg s n past t st) : t.calls[s.calls.length]? = some st := by
  rw [h.calls]
  simp

theorem Lone.begin (hs : s.Idle) (hact : s.act cfg (.call (.resolve n limits)) = some t) :
    Lone cfg s n [] t (.looking n limits) := by
  obtain rfl := Option.some.inj hact
  exact ⟨rfl, Nat.le_refl _, .looking ⟨⟨rfl, rfl, hs.building, hs.claimant, hs.occupant⟩,
    hs.resolving, rfl, log_start cfg _⟩⟩

theorem Lone.mover (h : Lone cfg s n past t st) (hs : s.Idle) (hst : Step cfg t a t') {j : Nat}
    (hj : a.mover? = some j) : j = s.calls.length ∧ ∃ u st', CallMove cfg t j a st u st' ∧
      t' = u.setCall j st' := by
  cases hst with
  | @move id _ st₁ u st' hc hm =>
    obtain rfl := Option.some.inj (hm.mover.symm.trans hj)
    rw [h.calls] at hc
    rcases Nat.lt_or_ge id s.calls.length with hlt | hge
    · rw [List.getElem?_append_left hlt] at hc
      obtain ⟨answer, rfl⟩ := hs.settled id st₁ hc
      cases hm
    · rw [List.getElem?_append_right hge] at hc
      obtain rfl := List.mem_singleton.mp (List.mem_of_getElem? hc)
      have hlt := (List.getElem?_eq_some_iff.mp hc).1
      rw [List.length_singleton] at hlt
      exact ⟨by omega, u, st', hm, rfl⟩
  | quiet hquiet =>
    rw [Action.mover?_eq_none hquiet] at hj
    cases hj
  | _ => cases hj

theorem Lone.set (h : Lone cfg s n past t st) (hu : u.calls = t.calls) (st' : Stage) :
    (u.setCall s.calls.length st').calls = s.calls ++ [st'] := by
  rw [State.setCall, hu, h.calls]
  simp

theorem Lone.drift (h : Lone cfg s n past t st) (hs : s.Idle) (hd : t.Drift t')
    (hcalls : t'.calls = t.calls) (ha : a.mover? = none) : Lone cfg s n (past ++ [(t, a)]) t' st where
  calls := hcalls.trans h.calls
  now := Nat.le_trans h.now hd.now
  standing := h.standing.drift hs hd ha

theorem Lone.step (h : Lone cfg s n past t st) (hs : s.Idle) (hact : t.act cfg a = some t')
    (ha : a.Unasked) (hno : ¬ t.Outlasts a) : ∃ st', Lone cfg s n (past ++ [(t, a)]) t' st' := by
  rcases ha with hinner | ⟨nanos, rfl⟩
  · have hst := step_of_act hact
    cases hm : a.mover? with
    | none =>
      -- a job goes on
      have hsteady : t.Steady t' := act_steady hact hinner fun j _ hj => by
        rw [hj] at hm
        cases hm
      obtain ⟨k, j, stage, hjob⟩ := hst.jobStep hinner hm
      have hd : t.Drift t' := ⟨Nat.le_of_eq hsteady.now.symm, hsteady.failures, hjob.resolving,
        Or.inr ⟨k, j, stage, hjob⟩⟩
      exact ⟨st, h.drift hs hd hjob.calls hm⟩
    | some j =>
      obtain ⟨rfl, u, st', hcall, rfl⟩ := h.mover hs hst hm
      have hnow : s.now ≤ (u.setCall s.calls.length st').now :=
        Nat.le_trans h.now (Nat.le_of_eq (act_now hact hinner).symm)
      cases st with
      | compiling n' g b =>
        obtain ⟨v, st'', ht, hv, hstanding⟩ := h.standing.batch h.call hact hm
        rw [ht] at hnow hstanding ⊢
        exact ⟨st'', h.set hv st'', hnow, hstanding⟩
      | batch b => cases h.standing
      | _ =>
        exact ⟨st', h.set hcall.quietCalls st', hnow,
          h.standing.move h.call hact hcall rfl h.now hno⟩
  · -- time passes
    obtain rfl := Option.some.inj hact
    have hd : t.Drift { t with now := t.now + nanos } :=
      ⟨Nat.le_add_right _ _, rfl, rfl, Or.inl ⟨rfl, rfl, rfl, rfl, rfl⟩⟩
    exact ⟨st, h.drift hs hd rfl rfl⟩

theorem Run.lone (h : Run cfg u past t) (hs : s.Idle)
    (hact : s.act cfg (.call (.resolve n limits)) = some u) (hun : ∀ p ∈ past, p.2.Unasked)
    (hno : ∀ p ∈ past, ¬ p.1.Outlasts p.2) : ∃ st, Lone cfg s n past t st := by
  induction h with
  | start => exact ⟨_, .begin hs hact⟩
  | @step past t a t' _ ha ih =>
    obtain ⟨st, hlone⟩ := ih (fun p hp => hun p (List.mem_append_left _ hp))
      (fun p hp => hno p (List.mem_append_left _ hp))
    exact hlone.step hs ha (hun (t, a) (by simp)) (hno (t, a) (by simp))

theorem Lone.canStep (h : Lone cfg s n past t st) :
    (∃ r, st = resolved r) ∨ t.CanStep cfg s.calls.length := by
  have hi := h.call
  have hstanding := h.standing
  cases hstanding with
  | compiling _ hb => exact Or.inr (hb.canStep (view_of_call hi))
  | attempted => exact Or.inl ⟨_, rfl⟩
  | stored => exact Or.inl ⟨_, rfl⟩
  | foreign => exact Or.inl ⟨_, rfl⟩
  | recalled => exact Or.inl ⟨_, rfl⟩
  | _ => exact Or.inr (.of_call hi rfl (by simp) (by simp))

/-! ## The outcome -/

/-- What has come of a lookup of `n` that began in `s` and has answered `r` by `t`, where `m` is the
moment at which it has looked for a remembered failure, if it has. -/
structure Outcome (cfg : Settings) (s : State) (n : Name) (past : List (State × Action)) (t : State)
    (m : Moment) (r : Resolution) : Prop where
  looked : s.store.get? n = none → cfg.isRemote n = true → LookedAt past s.calls.length n m
  since : s.now ≤ m
  upto : m ≤ t.now
  fetched : Wanted cfg s n m → fetches past = [n]
  unfetched : ¬ Wanted cfg s n m → fetches past = []
  /-- A source comes of a fetch. -/
  given : (sources past).length ≤ (fetches past).length
  compiled : s.Handed t (sources past)
  found : ∀ x, r = .found x ↔ t.store.get? n = some x
  absent : r = .absent ↔ (s.store.get? n = none ∧ cfg.isRemote n = false) ∨
    (t.store.get? n = none ∧ ∃ report, Returned cfg past s.calls.length (.reported report))
  failed : ∀ e, r = .failed e → t.store = s.store
  recalled : ∀ e, s.store.get? n = none → cfg.isRemote n = true →
    s.remembered? m n = some e → r = .failed e
  /-- A lasting failure of this attempt is found until it expires. -/
  remembered : Wanted cfg s n m → ∀ e f, r = .failed e → e.isLasting = true → s.failures = some f →
    ∃ f' m' expires, t.failures = some f' ∧ m ≤ m' ∧ m' ≤ t.now ∧
      Moment.after? m' f.ttl = some expires ∧ f'.find? n = some ⟨n, e, expires⟩
  /-- Otherwise nothing is remembered, and a look may have dropped what it found expired. -/
  unremembered : (Wanted cfg s n m → ∀ e, r = .failed e → e.isLasting = false) →
    t.failures = if s.store.get? n = none ∧ cfg.isRemote n = true then s.looked m n
      else s.failures

theorem Untried.outcome {f : Option Failures} (h : Untried cfg s past t f) (hnow : s.now ≤ m)
    (hnow' : m ≤ t.now) (hw : ¬ Wanted cfg s n m)
    (hlook : s.store.get? n = none → cfg.isRemote n = true → LookedAt past s.calls.length n m)
    (hf : f = if s.store.get? n = none ∧ cfg.isRemote n = true then s.looked m n else s.failures)
    (hfound : ∀ x, r = .found x ↔ s.store.get? n = some x)
    (habsent : r = .absent ↔ s.store.get? n = none ∧ cfg.isRemote n = false)
    (hrecalled : ∀ e, s.store.get? n = none → cfg.isRemote n = true →
      s.remembered? m n = some e → r = .failed e) : Outcome cfg s n past t m r where
  looked := hlook
  since := hnow
  upto := hnow'
  fetched := fun hw' => absurd hw' hw
  unfetched := fun _ => h.log.fetches
  given := by
    rw [h.log.sources, h.log.fetches]
    exact Nat.le_refl _
  compiled := by
    rw [h.log.sources]
    exact handed_nothing h.prior.jobs (Nat.zero_le _) rfl
  found := by
    rw [h.prior.store]
    exact hfound
  absent := by
    rw [habsent]
    refine ⟨Or.inl, fun hr => hr.resolve_right ?_⟩
    rintro ⟨-, report, hret⟩
    cases (h.log.returned _).mp hret
  failed := fun _ _ => h.prior.store
  recalled := hrecalled
  remembered := fun hw' => absurd hw' hw
  unremembered := fun _ => h.failures.trans hf

theorem State.Recorded.remembered {f : Failures} {e : CallError} (h : s.Recorded n m (.failed e) t)
    (he : e.isLasting = true) (hf : s.failures = some f) :
    ∃ f' m' expires, t.failures = some f' ∧ m ≤ m' ∧ m' ≤ t.now ∧
      Moment.after? m' f.ttl = some expires ∧ f'.find? n = some ⟨n, e, expires⟩ := by
  obtain ⟨f', m', hm, hm', hf', hnoted⟩ := h.2 f hf
  obtain ⟨expires, hexpires, hfind⟩ := Failures.find?_record he hnoted
  rw [Failures.ttl_lookup] at hexpires
  exact ⟨f', m', expires, hf', hm, hm', hexpires, hfind⟩

theorem State.Recorded.unremembered (h : s.Recorded n m r t)
    (hr : ∀ e, r = .failed e → e.isLasting = false) : t.failures = s.looked m n := by
  cases hf : s.failures with
  | none =>
    rw [State.looked, hf]
    exact h.1 hf
  | some f =>
    obtain ⟨f', m', -, -, hf', hnoted⟩ := h.2 f hf
    rw [State.looked, hf, hf', Option.map_some, Option.some_inj]
    cases r with
    | failed e =>
      rw [Noted, Failures.record_of_not_lasting _ _ _ (hr e rfl)] at hnoted
      exact (Prod.mk.inj hnoted).1.symm
    | _ => exact hnoted

theorem Judged.outcome (h : Judged cfg s n past t r) (ht : Sought cfg s n past t m none)
    (hrec : s.Recorded n m r t) : Outcome cfg s n past t m r where
  looked := fun _ _ => ht.looked
  since := ht.since
  upto := ht.upto
  fetched := fun _ => by cases h with
    | failed _ _ hl => exact hl.fetches
    | read _ hl => exact hl.fetches
  unfetched := fun hw => absurd ht.wanted hw
  given := by cases h with
    | failed _ _ hl hh =>
      rw [hl.sources, hl.fetches]
      exact hh.few
    | read _ hl hh =>
      rw [hl.sources, hl.fetches]
      exact hh.few
  compiled := by cases h with
    | failed _ _ hl hh => exact hl.sources ▸ hh
    | read _ hl hh => exact hl.sources ▸ hh
  found := fun x => by cases h with
    | failed e hr _ _ _ hstore =>
      rw [hr, hstore, ht.lacking]
      simp
    | read hr =>
      rw [hr]
      cases t.store.get? n <;> simp [Resolution.ofOption]
  absent := by
    -- the name is remote, so an absence can only come of a report
    have hremote : ¬ (s.store.get? n = none ∧ cfg.isRemote n = false) := fun h =>
      absurd (ht.isRemote.symm.trans h.2) (by decide)
    cases h with
    | failed e hr hl _ hend =>
      refine ⟨fun ha => (by cases hr.symm.trans ha), fun hor => ?_⟩
      obtain ⟨-, report, hret⟩ := hor.resolve_left hremote
      exact absurd ((hl.returned _).mp hret) (hend report)
    | read hr hl =>
      rw [hr, or_iff_right hremote, and_iff_left ⟨_, (hl.returned _).mpr rfl⟩]
      cases t.store.get? n <;> simp [Resolution.ofOption]
  failed := fun e he => by cases h with
    | failed _ _ _ _ _ hstore => exact hstore
    | read hr =>
      rw [hr] at he
      cases hx : t.store.get? n <;> rw [hx] at he <;> cases he
  recalled := fun e _ _ hmem => by cases ht.remembered.symm.trans hmem
  remembered := by
    rintro - e f rfl he hf
    exact hrec.remembered he hf
  unremembered := fun hr => by
    rw [if_pos ⟨ht.lacking, ht.isRemote⟩]
    exact hrec.unremembered (hr ht.wanted)

theorem Lone.outcome {answer : Answer} (h : Lone cfg s n past t (.finished answer)) :
    ∃ r m, answer = .lookup (.resolved r) ∧ Outcome cfg s n past t m r := by
  have hnow := h.now
  have hstanding := h.standing
  -- after an attempt, from the store, for a name that is local, or from memory
  cases hstanding with
  | attempted ht hj hrec => exact ⟨_, _, rfl, hj.outcome ht hrec⟩
  | stored hx hu =>
    refine ⟨_, s.now, rfl, hu.outcome (Nat.le_refl _) hnow ?_ ?_ ?_ ?_ ?_ ?_⟩
    · intro hw
      cases hx.symm.trans hw.lacking
    · intro hn
      cases hx.symm.trans hn
    · simp [hx]
    · simp [hx]
    · simp [hx]
    · intro e hn
      cases hx.symm.trans hn
  | foreign hn hr hu =>
    refine ⟨_, s.now, rfl, hu.outcome (Nat.le_refl _) hnow ?_ ?_ ?_ ?_ ?_ ?_⟩
    · intro hw
      cases hr.symm.trans hw.isRemote
    · intro _ hr'
      cases hr.symm.trans hr'
    · simp [hr]
    · simp [hn]
    · simp [hn, hr]
    · intro e _ hr'
      cases hr.symm.trans hr'
  | recalled ht hu =>
    refine ⟨_, _, rfl, hu.outcome ht.since ht.upto ?_ (fun _ _ => ht.looked) ?_ ?_ ?_ ?_⟩
    · intro hw
      cases ht.remembered.symm.trans hw.forgotten
    · rw [if_pos ⟨ht.lacking, ht.isRemote⟩]
    · simp [ht.lacking]
    · simp [ht.isRemote]
    · intro e _ _ hmem
      cases ht.remembered.symm.trans hmem
      rfl

/-- A lookup that begins while nobody is at work, and beside which nobody asks for anything, can go
on until it answers, which it does within 25 moves of the engine and its surroundings unless its
failure outlasts the clock. What it answers is a result, with what `Outcome` says of it. -/
theorem lookup_alone (hs : s.Idle) (hact : s.act cfg (.call (.resolve n limits)) = some u)
    (h : Run cfg u past t) (hun : ∀ p ∈ past, p.2.Unasked) (hno : ∀ p ∈ past, ¬ p.1.Outlasts p.2) :
    ((∃ r, t.calls[s.calls.length]? = some (resolved r)) ∨ t.CanStep cfg s.calls.length) ∧
    (past.countP fun p => p.2.isInner) ≤ 25 ∧
    ∀ answer, t.calls[s.calls.length]? = some (.finished answer) →
      ∃ r m, answer = .lookup (.resolved r) ∧ Outcome cfg s n past t m r := by
  obtain ⟨st, hlone⟩ := h.lone hs hact hun hno
  refine ⟨?_, ?_, fun answer hanswer => ?_⟩
  · rcases hlone.canStep with ⟨r, rfl⟩ | hstep
    · exact Or.inl ⟨r, hlone.call⟩
    · exact Or.inr hstep
  · have hbound := h.inner_le_work hun
    obtain rfl := Option.some.inj hact
    have hwork : ({ s with calls := s.calls ++ [Request.stage (.resolve n limits)] } : State).work =
        s.work + 25 := by
      simp [State.work, jobWork, Request.stage, Stage.work]
      omega
    rw [hwork, hs.work] at hbound
    omega
  · obtain rfl := Option.some.inj (hlone.call.symm.trans hanswer)
    exact hlone.outcome

end

/-- After a lookup of `x` has begun: the repository gives `y` for it, whose compilation fails. -/
def foundering : List Action :=
  List.flatten
    [List.replicate 5 (.advance 0), [.elapse 1, .fetched 0 (.unit (Sample.unit Sample.y))],
      List.replicate 4 (.advance 0), [.prepare 0, .built 0 (.failed ⟨"boom", [], []⟩)],
      List.replicate 6 (.advance 0)]

theorem lookup_alone_foundering :
    ∃ (s u : State) (past : List (State × Action)) (t : State), s.Idle ∧
      s.act Sample.settings (.call (.resolve Sample.x .unbounded)) = some u ∧
      Run Sample.settings u past t ∧ (∀ p ∈ past, p.2.Unasked) ∧ (∀ p ∈ past, ¬ p.1.Outlasts p.2) ∧
      fetches past = [Sample.x] ∧ t.jobs.map (·.units) = [[Sample.unit Sample.y]] ∧ t.store = s.store ∧
      ∃ e f expires, t.calls = [resolved (.failed e)] ∧ t.failures = some f ∧
        f.find? Sample.x = some ⟨Sample.x, e, expires⟩ := by
  let s := State.fresh 0 .empty (some ⟨5, by decide⟩)
  have hstart : Run Sample.settings s [] s := .start
  have hidle : s.Idle := hstart.idle (by simp [State.Settled, s, State.fresh]) (by simp [s, State.fresh])
  let u : State := { s with calls := [.looking Sample.x .unbounded] }
  -- what is seen of the run is decided, the rest follows
  have hperform : (u.perform Sample.settings foundering).any fun r =>
      (∀ p ∈ r.1, p.2.Unasked) ∧ (∀ p ∈ r.1, ¬ p.1.Outlasts p.2) ∧
      sources r.1 = [Sample.unit Sample.y] ∧
      r.2.calls = [resolved (.failed (.compile [Sample.y] "boom" []))] := by
    decide +kernel
  obtain ⟨past, t, hrun, hun, hno, hsources, hcalls⟩ := Run.of_any hperform
  have hact : s.act Sample.settings (.call (.resolve Sample.x .unbounded)) = some u := rfl
  obtain ⟨-, -, hout⟩ := lookup_alone hidle hact hrun hun hno
  obtain ⟨r, m, hr, hout⟩ := hout _ (by rw [hcalls]; rfl)
  cases hr
  have hw : Wanted Sample.settings s Sample.x m := ⟨rfl, by decide +kernel, rfl⟩
  obtain ⟨new, hjobs, hunits, -⟩ := hout.compiled.jobs
  obtain ⟨f, _, expires, hf, -, -, -, hfind⟩ := hout.remembered hw _ _ rfl rfl rfl
  refine ⟨s, u, past, t, hidle, hact, hrun, hun, hno, hout.fetched hw, ?_, hout.failed _ rfl, _, f,
    expires, hcalls, hf, hfind⟩
  rw [hjobs, List.map_append, hunits, hsources]
  rfl

end OnDemand.Engine
