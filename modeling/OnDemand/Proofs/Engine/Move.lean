import OnDemand.Engine.Step

/-!
# The moves of the engine as a relation

`State.act` is a function, and a proof about it wants to know what a move can have been. `Step`
lists the moves one by one, each with what it asks for and what it leaves behind; `step_of_act`
says that the list is complete. The moves of a call are listed apart (`CallMove`), and among these
the moves of a batch (`BatchMove`), which a caller's own batch and the batch of a lookup share.
-/

namespace OnDemand.Engine

namespace State

/-! ## What telling and moving leave alone -/

section
variable (s : State) (cfg : Settings) (e : Event) (id : Nat) (st : Stage) (j : JobStage)

@[simp] theorem tell_store : (s.tell e).store = s.store := rfl
@[simp] theorem tell_resolving : (s.tell e).resolving = s.resolving := rfl
@[simp] theorem tell_building : (s.tell e).building = s.building := rfl
@[simp] theorem tell_claimant : (s.tell e).claimant = s.claimant := rfl
@[simp] theorem tell_occupant : (s.tell e).occupant = s.occupant := rfl
@[simp] theorem tell_jobs : (s.tell e).jobs = s.jobs := rfl
@[simp] theorem tell_calls : (s.tell e).calls = s.calls := rfl

@[simp] theorem setCall_store : (s.setCall id st).store = s.store := rfl
@[simp] theorem setCall_resolving : (s.setCall id st).resolving = s.resolving := rfl
@[simp] theorem setCall_building : (s.setCall id st).building = s.building := rfl
@[simp] theorem setCall_claimant : (s.setCall id st).claimant = s.claimant := rfl
@[simp] theorem setCall_occupant : (s.setCall id st).occupant = s.occupant := rfl
@[simp] theorem setCall_jobs : (s.setCall id st).jobs = s.jobs := rfl

@[simp] theorem setJob_store : (s.setJob id j).store = s.store := rfl
@[simp] theorem setJob_resolving : (s.setJob id j).resolving = s.resolving := rfl
@[simp] theorem setJob_building : (s.setJob id j).building = s.building := rfl
@[simp] theorem setJob_claimant : (s.setJob id j).claimant = s.claimant := rfl
@[simp] theorem setJob_occupant : (s.setJob id j).occupant = s.occupant := rfl
@[simp] theorem setJob_calls : (s.setJob id j).calls = s.calls := rfl

end

/-- What a move may change besides its own subject: the failures remembered and the events told. -/
structure Quiet (s t : State) : Prop where
  store : t.store = s.store
  resolving : t.resolving = s.resolving
  building : t.building = s.building
  claimant : t.claimant = s.claimant
  occupant : t.occupant = s.occupant
  jobs : t.jobs = s.jobs
  calls : t.calls = s.calls

theorem Quiet.refl (s : State) : s.Quiet s := ⟨rfl, rfl, rfl, rfl, rfl, rfl, rfl⟩

theorem quiet_tell (s : State) (e : Event) : s.Quiet (s.tell e) :=
  ⟨rfl, rfl, rfl, rfl, rfl, rfl, rfl⟩

theorem quiet_tellLookup (s : State) (cfg : Settings) (e : Event) : s.Quiet (s.tellLookup cfg e) := by
  unfold tellLookup
  split
  · exact quiet_tell s e
  · exact .refl s

theorem quiet_read (s : State) (cfg : Settings) (n : Name) : s.Quiet (s.read cfg n).1 := by
  unfold read
  split
  · exact quiet_tellLookup s cfg _
  · exact .refl s

theorem quiet_record (s : State) (n : Name) (r : Resolution) : s.Quiet (s.record n r).1 := by
  unfold record
  split
  · split <;> exact ⟨rfl, rfl, rfl, rfl, rfl, rfl, rfl⟩
  · exact .refl s

end State

open State

/-! ## Batches -/

/-- How a batch goes on at some moment when it has some flights left to wait for. -/
inductive Onward (now : Moment) (b : Batch) : List (Name × Nat) → BatchStage ⊕ BatchEnd → Prop where
  | submit : Onward now b [] (.inl (.submitting b))
  | wait (p : Name × Nat) (rest : List (Name × Nat)) (deadline : Option Moment) :
      Onward now b (p :: rest) (.inl (.following b (p :: rest) deadline))
  /-- The clock cannot show the end of the wait. -/
  | overflow (p : Name × Nat) (rest : List (Name × Nat)) {limit : Duration} :
      b.limits.compile = some limit → Moment.after? now limit = none →
      Onward now b (p :: rest) (endBatch b.claims (.overflowed .deadline))

theorem followNext_onward (s : State) (b : Batch) (rest : List (Name × Nat)) :
    Onward s.now b rest (s.followNext b rest) := by
  unfold followNext
  split
  · exact .submit
  · split
    · exact .wait _ _ _
    · rename_i limit hlimit
      split
      · exact .wait _ _ _
      · rename_i hnow
        exact .overflow _ _ hlimit hnow

theorem endBatch_stage {c : Claims} {ending : BatchEnd} {b' : BatchStage}
    (h : (endBatch c ending).getLeft? = some b') : b' = .releasing ⟨c.flight, c.led⟩ ending := by
  unfold endBatch Claims.guard? at h
  split at h
  · rename_i g hg
    split at hg
    · cases hg
    · obtain rfl := Option.some.inj hg
      exact (Option.some.inj h).symm
  · cases h

theorem Onward.stage {now : Moment} {b : Batch} {rest : List (Name × Nat)} {next : BatchStage ⊕ BatchEnd}
    {b' : BatchStage} (h : Onward now b rest next) (hb : next.getLeft? = some b') :
    (rest = [] ∧ b' = .submitting b) ∨ (∃ deadline, b' = .following b rest deadline) ∨
      b' = .releasing ⟨b.claims.flight, b.claims.led⟩ (.overflowed .deadline) := by
  cases h with
  | submit => exact Or.inl ⟨rfl, (Option.some.inj hb).symm⟩
  | wait p rest deadline => exact Or.inr (Or.inl ⟨deadline, (Option.some.inj hb).symm⟩)
  | overflow => exact Or.inr (Or.inr (endBatch_stage hb))

/-- The moves of a batch on behalf of a call. -/
inductive BatchMove (cfg : Settings) (s : State) (call : Nat) :
    Action → BatchStage → State → BatchStage ⊕ BatchEnd → Prop where
  | enter {units limits} : s.claimant = none →
      BatchMove cfg s call (.advance call) (.entering units limits)
        { s with building := s.building.begin.2, claimant := some call }
        (.inl (.claiming units limits (Name.distinct (units.map (·.name)))
          (.start s.building.begin.1)))
  /-- The next name is in another's flight. -/
  | follow {units limits n rest claims f} : s.building.flightOf? n = some f →
      BatchMove cfg s call (.advance call) (.claiming units limits (n :: rest) claims) s
        (.inl (.claiming units limits rest { claims with followed := claims.followed ++ [(n, f)] }))
  /-- The next name is stored. -/
  | skip {units limits n rest claims} : s.building.flightOf? n = none →
      s.store.contains n = true →
      BatchMove cfg s call (.advance call) (.claiming units limits (n :: rest) claims) s
        (.inl (.claiming units limits rest { claims with done := claims.done ++ [n] }))
  /-- The next name is free. -/
  | lead {units limits n rest claims} : s.building.flightOf? n = none →
      s.store.contains n = false →
      BatchMove cfg s call (.advance call) (.claiming units limits (n :: rest) claims)
        { s with building :=
          { s.building with claimed := s.building.claimed ++ [(n, claims.flight)] } }
        (.inl (.claiming units limits rest { claims with led := claims.led ++ [n] }))
  | claimed {units limits claims next} :
      Onward s.now ⟨units, limits, claims, claims.led, []⟩ claims.followed next →
      BatchMove cfg s call (.advance call) (.claiming units limits [] claims)
        { s with claimant := none } next
  /-- The flight waited for has ended. -/
  | arrive {b n f rest deadline} : s.building.flight? f ≠ some .pending →
      BatchMove cfg s call (.advance call) (.following b ((n, f) :: rest) deadline) s
        (.inl (.checking b n rest))
  | arriveAll {b deadline} :
      BatchMove cfg s call (.advance call) (.following b [] deadline) s (.inl (.submitting b))
  /-- The flight has stored the name. -/
  | join {b n rest next} : s.store.contains n = true →
      Onward s.now { b with joined := b.joined ++ [n] } rest next →
      BatchMove cfg s call (.advance call) (.checking b n rest) s next
  /-- The flight has not stored the name. -/
  | takeOver {b n rest next} : s.store.contains n = false →
      Onward s.now { b with pending := b.pending ++ [n] } rest next →
      BatchMove cfg s call (.advance call) (.checking b n rest) s next
  | idle {b t} : b.submission = [] → s.Quiet t →
      BatchMove cfg s call (.advance call) (.submitting b) t
        (endBatch b.claims (.reported (b.report [] [])))
  | submit {b} : b.submission ≠ [] →
      BatchMove cfg s call (.advance call) (.submitting b)
        { s with jobs := s.jobs ++ [⟨b.submission, b.claims.done.length,
          if cfg.reentrant then .preparing else .queued⟩] }
        (.inl (.building b (b.submission.map (·.name)) s.jobs.length
          (b.limits.compile.bind (Moment.after? s.now))))
  | receive {b submitted job deadline j o} : s.jobs[job]? = some j →
      j.stage = .returned (.ended (.output o)) →
      BatchMove cfg s call (.advance call) (.building b submitted job deadline) s
        (.inl (.storing b submitted o))
  /-- The compiler has failed, or was never started. -/
  | fail {b submitted job deadline j r t e} : s.jobs[job]? = some j →
      j.stage = .returned r → (∀ o, r ≠ .ended (.output o)) → s.Quiet t →
      BatchMove cfg s call (.advance call) (.building b submitted job deadline) t
        (endBatch b.claims (.failed e))
  | keep {b submitted output produced store} :
      s.store.putAll output.artifacts = .ok (produced, store) →
      BatchMove cfg s call (.advance call) (.storing b submitted output)
        ({ s with store := store }.tell (.compiled submitted produced))
        (endBatch b.claims (.reported (b.report submitted produced)))
  /-- The store has refused what the compiler made. -/
  | conflict {b submitted output e t} : s.store.putAll output.artifacts = .error e → s.Quiet t →
      BatchMove cfg s call (.advance call) (.storing b submitted output) t
        (endBatch b.claims (.failed e))
  | release {g ending} : s.claimant = none →
      BatchMove cfg s call (.advance call) (.releasing g ending)
        { s with building := s.building.release g } (.inl (.landing g ending))
  | land {g ending} :
      BatchMove cfg s call (.advance call) (.landing g ending)
        { s with building := s.building.settle g.flight (flightOf ending) } (.inr ending)
  | expireWait {b n f rest deadline limit t} : s.building.flight? f = some .pending → s.Quiet t →
      BatchMove cfg s call (.expire call) (.following b ((n, f) :: rest) deadline) t
        (endBatch b.claims (.failed (.timedOut .wait limit)))
  | expireBuild {b submitted job deadline limit t} : s.Quiet t →
      BatchMove cfg s call (.expire call) (.building b submitted job deadline) t
        (endBatch b.claims (.failed (.timedOut .compile limit)))

theorem batchMove_claim {cfg : Settings} {s : State} {call : Nat} (units : List SourceUnit)
    (limits : Limits) (n : Name) (rest : List Name) (c : Claims) :
    BatchMove cfg s call (.advance call) (.claiming units limits (n :: rest) c)
      { s with building := (s.building.claimName (s.store.contains n) c n).1 }
      (.inl (.claiming units limits rest (s.building.claimName (s.store.contains n) c n).2)) := by
  unfold FlightTable.claimName
  cases hf : s.building.flightOf? n with
  | some f => exact .follow hf
  | none =>
    cases hs : s.store.contains n with
    | true => exact .skip hf hs
    | false => exact .lead hf hs

theorem batchMove_submit {cfg : Settings} {s : State} {call : Nat} (b : Batch) :
    BatchMove cfg s call (.advance call) (.submitting b) (s.submit cfg b).1 (s.submit cfg b).2 := by
  unfold State.submit
  by_cases hs : b.submission.isEmpty = true
  · rw [if_pos hs]
    refine .idle (by simpa using hs) ?_
    split
    · exact quiet_tell _ _
    · exact .refl _
  · rw [if_neg hs]
    exact .submit (by simpa using hs)

theorem batchMove_receive {cfg : Settings} {s : State} {call : Nat} (b : Batch)
    (submitted : List Name) {job : Nat} (deadline : Option Moment) {j : Job} {r : JobEnd}
    (hj : s.jobs[job]? = some j) (hs : j.stage = .returned r) :
    BatchMove cfg s call (.advance call) (.building b submitted job deadline)
      (s.receive b submitted r).1 (s.receive b submitted r).2 := by
  cases r with
  | unstarted => exact .fail hj hs (by simp) (quiet_tell _ _)
  | ended reply =>
    cases reply with
    | output o => exact .receive hj hs
    | failed f => exact .fail hj hs (by simp) (quiet_tell _ _)
    | crashed => exact .fail hj hs (by simp) (quiet_tell _ _)

theorem batchMove_keep {cfg : Settings} {s : State} {call : Nat} (b : Batch) (submitted : List Name)
    (output : BuildOutput) :
    BatchMove cfg s call (.advance call) (.storing b submitted output)
      (s.keep b submitted output).1 (s.keep b submitted output).2 := by
  unfold State.keep
  cases hp : s.store.putAll output.artifacts with
  | ok r => exact .keep hp
  | error e => exact .conflict hp (quiet_tell _ _)

theorem batchMove_of_advance {cfg : Settings} {s t : State} {call : Nat} {b : BatchStage}
    {next : BatchStage ⊕ BatchEnd} (h : s.advanceBatch cfg call b = some (t, next)) :
    BatchMove cfg s call (.advance call) b t next := by
  -- each branch of the step is one kind of move
  cases b with
  | entering units limits =>
    simp only [advanceBatch] at h
    split at h
    · rename_i hc
      obtain ⟨rfl, rfl⟩ : _ ∧ _ := by simpa using h
      exact .enter (by simpa using hc)
    · cases h
  | claiming units limits rest claims =>
    cases rest with
    | nil =>
      obtain ⟨rfl, rfl⟩ : _ ∧ _ := by simpa [advanceBatch] using h
      exact .claimed (followNext_onward { s with claimant := none } _ _)
    | cons n rest =>
      obtain ⟨rfl, rfl⟩ := Prod.mk.inj (Option.some.inj h)
      exact batchMove_claim units limits n rest claims
  | following b rest deadline =>
    cases rest with
    | nil =>
      obtain ⟨rfl, rfl⟩ : _ ∧ _ := by simpa [advanceBatch] using h
      exact .arriveAll
    | cons p rest =>
      simp only [advanceBatch] at h
      split at h
      · cases h
      · rename_i hp
        obtain ⟨rfl, rfl⟩ : _ ∧ _ := by simpa using h
        exact .arrive hp
  | checking b n rest =>
    obtain ⟨rfl, rfl⟩ : _ ∧ _ := by simpa [advanceBatch] using h
    by_cases hs : s.store.contains n = true
    · simp only [hs, if_true]
      exact .join hs (followNext_onward _ _ _)
    · simp only [hs]
      exact .takeOver (by simpa using hs) (followNext_onward _ _ _)
  | submitting b =>
    obtain ⟨rfl, rfl⟩ := Prod.mk.inj (Option.some.inj h)
    exact batchMove_submit b
  | building b submitted job deadline =>
    simp only [advanceBatch] at h
    split at h
    · rename_i hj
      obtain ⟨rfl, rfl⟩ := Prod.mk.inj (Option.some.inj h)
      exact batchMove_receive b submitted deadline hj rfl
    · cases h
  | storing b submitted output =>
    obtain ⟨rfl, rfl⟩ := Prod.mk.inj (Option.some.inj h)
    exact batchMove_keep b submitted output
  | releasing g ending =>
    simp only [advanceBatch] at h
    split at h
    · rename_i hc
      obtain ⟨rfl, rfl⟩ : _ ∧ _ := by simpa using h
      exact .release (by simpa using hc)
    · cases h
  | landing g ending =>
    obtain ⟨rfl, rfl⟩ : _ ∧ _ := by simpa [advanceBatch] using h
    exact .land

theorem batchMove_of_expire {cfg : Settings} {s t : State} {call : Nat} {b : BatchStage}
    {next : BatchStage ⊕ BatchEnd} (h : s.expireBatch b = some (t, next)) :
    BatchMove cfg s call (.expire call) b t next := by
  unfold expireBatch at h
  split at h
  · split at h
    · rename_i hf _
      split at h
      · obtain ⟨rfl, rfl⟩ : _ ∧ _ := by simpa using h
        exact .expireWait hf (quiet_tell _ _)
      · cases h
    · cases h
  · split at h
    · cases h
    · split at h
      · obtain ⟨rfl, rfl⟩ : _ ∧ _ := by simpa using h
        exact .expireBuild (quiet_tell _ _)
      · cases h
    · cases h
  · cases h

/-- What a move of a batch does to the rest: it stores something only when it keeps an output, and
makes a job only when it submits. -/
structure BatchFrame (s : State) (b : BatchStage) (t : State) : Prop where
  calls : t.calls = s.calls
  resolving : t.resolving = s.resolving
  occupant : t.occupant = s.occupant
  store : t.store = s.store ∨ ∃ b' submitted output produced,
    b = .storing b' submitted output ∧ s.store.putAll output.artifacts = .ok (produced, t.store)
  jobs : t.jobs = s.jobs ∨ ∃ b' skipped stage, b = .submitting b' ∧ (∀ r, stage ≠ .returned r) ∧
    t.jobs = s.jobs ++ [⟨b'.submission, skipped, stage⟩]

theorem State.Quiet.batchFrame {s t : State} (h : s.Quiet t) (b : BatchStage) : BatchFrame s b t :=
  ⟨h.calls, h.resolving, h.occupant, Or.inl h.store, Or.inl h.jobs⟩

theorem BatchMove.frame {cfg : Settings} {s t : State} {call : Nat} {a : Action} {b : BatchStage}
    {next : BatchStage ⊕ BatchEnd} (h : BatchMove cfg s call a b t next) : BatchFrame s b t := by
  cases h with
  | idle _ hq => exact hq.batchFrame _
  | fail _ _ _ hq => exact hq.batchFrame _
  | conflict _ hq => exact hq.batchFrame _
  | expireWait _ hq => exact hq.batchFrame _
  | expireBuild hq => exact hq.batchFrame _
  | keep hp => exact ⟨rfl, rfl, rfl, Or.inr ⟨_, _, _, _, rfl, hp⟩, Or.inl rfl⟩
  | submit =>
    refine ⟨rfl, rfl, rfl, Or.inl rfl, Or.inr ⟨_, _, _, rfl, ?_, rfl⟩⟩
    intro r
    split <;> simp
  | _ => exact ⟨rfl, rfl, rfl, Or.inl rfl, Or.inl rfl⟩

/-! ## Calls -/

def Action.mover? : Action → Option Nat
  | .advance id => some id
  | .expire id => some id
  | .fetched id _ => some id
  | _ => none

/-- A move for which nobody has to ask: calls and jobs go on, the repository or the compiler
answers, or a wait is over. -/
def Action.isInner : Action → Bool
  | .advance _ => true
  | .expire _ => true
  | .fetched _ _ => true
  | .prepare _ => true
  | .built _ _ => true
  | .founder _ => true
  | _ => false

theorem Action.mover?_eq_none {a : Action} (h : a.isInner = false) : a.mover? = none := by
  cases a with
  | advance => cases h
  | expire => cases h
  | fetched => cases h
  | _ => rfl

theorem BatchMove.action {cfg : Settings} {s t : State} {call : Nat} {a : Action} {b : BatchStage}
    {next : BatchStage ⊕ BatchEnd} (h : BatchMove cfg s call a b t next) :
    a = .advance call ∨ a = .expire call := by
  cases h with
  | expireWait => exact Or.inr rfl
  | expireBuild => exact Or.inr rfl
  | _ => exact Or.inl rfl

theorem BatchMove.mover {cfg : Settings} {s t : State} {call : Nat} {a : Action} {b : BatchStage}
    {next : BatchStage ⊕ BatchEnd} (h : BatchMove cfg s call a b t next) :
    a.mover? = some call := by
  rcases h.action with rfl | rfl <;> rfl

/-- The moves of a call. -/
inductive CallMove (cfg : Settings) (s : State) (call : Nat) :
    Action → Stage → State → Stage → Prop where
  | peek {n} :
      CallMove cfg s call (.advance call) (.recalling n) (s.read cfg n).1
        (.finished (.stored (s.read cfg n).2))
  | hit {n limits a} : s.store.get? n = some a →
      CallMove cfg s call (.advance call) (.looking n limits) (s.tellLookup cfg (.cacheHit n))
        (resolved (.found a))
  | miss {n limits} : s.store.get? n = none →
      CallMove cfg s call (.advance call) (.looking n limits) s (.missed n limits)
  | isRemote {n limits} : cfg.isRemote n = true →
      CallMove cfg s call (.advance call) (.missed n limits)
        (s.tellLookup cfg (.cacheMiss n true)) (.remembering n limits)
  | isLocal {n limits} : cfg.isRemote n = false →
      CallMove cfg s call (.advance call) (.missed n limits)
        (s.tellLookup cfg (.cacheMiss n false)) (resolved .absent)
  | forgetful {n limits} : s.failures = none →
      CallMove cfg s call (.advance call) (.remembering n limits) s (.claiming n limits)
  | forgotten {n limits f f'} : s.failures = some f → f.lookup s.now n = (none, f') →
      CallMove cfg s call (.advance call) (.remembering n limits) { s with failures := some f' }
        (.claiming n limits)
  | remembered {n limits f f' e} : s.failures = some f → f.lookup s.now n = (some e, f') →
      CallMove cfg s call (.advance call) (.remembering n limits)
        ({ s with failures := some f' }.tell (.negativeHit n)) (resolved (.failed e))
  /-- The name is in another's flight. -/
  | follow {n limits f timeout deadline} : s.resolving.flightOf? n = some f →
      CallMove cfg s call (.advance call) (.claiming n limits)
        ({ s with resolving := s.resolving.begin.2 }.tell (.joined n))
        (.following n f timeout deadline)
  | followOverflow {n limits f o} : s.resolving.flightOf? n = some f →
      CallMove cfg s call (.advance call) (.claiming n limits)
        ({ s with resolving := s.resolving.begin.2 }.tell (.joined n))
        (.finished (.lookup (.overflowed o)))
  | skip {n limits} : s.resolving.flightOf? n = none → s.store.contains n = true →
      CallMove cfg s call (.advance call) (.claiming n limits)
        { s with resolving := s.resolving.begin.2 } (.rereading n)
  | lead {n limits} : s.resolving.flightOf? n = none → s.store.contains n = false →
      CallMove cfg s call (.advance call) (.claiming n limits)
        { s with resolving := { s.resolving.begin.2 with
          claimed := s.resolving.claimed ++ [(n, s.resolving.begin.1)] } }
        (.departing n limits ⟨s.resolving.begin.1, [n]⟩)
  | reread {n} :
      CallMove cfg s call (.advance call) (.rereading n) (s.read cfg n).1
        (resolved (.ofOption (s.read cfg n).2))
  | share {n f timeout deadline r} : s.resolving.flight? f = some (.landed r) →
      CallMove cfg s call (.advance call) (.following n f timeout deadline) s (resolved r)
  | shareLoss {n f timeout deadline} : s.resolving.flight? f = some .abandoned →
      CallMove cfg s call (.advance call) (.following n f timeout deadline) s
        (resolved (.failed (.abandoned .wait)))
  | depart {n limits g} :
      CallMove cfg s call (.advance call) (.departing n limits g)
        (s.tell (.fetchStarted n cfg.repository))
        (.fetching n limits g (limits.fetch.bind (Moment.after? s.now)))
  | compile {n g a b t next} : BatchMove cfg s call a b t next →
      CallMove cfg s call a (.compiling n g b) t (afterBatch n g next)
  | recheck {n g} :
      CallMove cfg s call (.advance call) (.rechecking n g) (s.read cfg n).1
        (.recording n g (.ofOption (s.read cfg n).2))
  | record {n g r} :
      CallMove cfg s call (.advance call) (.recording n g r) (s.record n r).1
        (.releasing g (s.record n r).2)
  | release {g ending} :
      CallMove cfg s call (.advance call) (.releasing g ending)
        { s with resolving := s.resolving.release g } (.landing g ending)
  | land {g ending} :
      CallMove cfg s call (.advance call) (.landing g ending)
        { s with resolving := s.resolving.settle g.flight (lookupFlight ending) }
        (.finished (.lookup ending))
  | own {a b t next} : BatchMove cfg s call a b t next →
      CallMove cfg s call a (.batch b) t (afterOwnBatch next)
  | expireWait {n f timeout deadline t} : s.resolving.flight? f = some .pending → s.Quiet t →
      CallMove cfg s call (.expire call) (.following n f (some timeout) (some deadline)) t
        (resolved (.failed (.timedOut .wait timeout)))
  | expireFetch {n limits g deadline limit t} : s.Quiet t →
      CallMove cfg s call (.expire call) (.fetching n limits g (some deadline)) t
        (.recording n g (.failed (.timedOut .fetch limit)))
  | fetched {n limits g deadline u} :
      CallMove cfg s call (.fetched call (.unit u)) (.fetching n limits g deadline)
        (s.tell (.fetched n true)) (.compiling n g (.entering [u] limits))
  | unfetched {n limits g deadline reply t e} : s.Quiet t →
      CallMove cfg s call (.fetched call reply) (.fetching n limits g deadline) t
        (.recording n g (.failed e))

theorem callMove_claim {cfg : Settings} {s : State} {call : Nat} (n : Name) (limits : Limits) :
    CallMove cfg s call (.advance call) (.claiming n limits) (s.claimLookup n limits).1
      (s.claimLookup n limits).2 := by
  have hof : s.resolving.begin.2.flightOf? n = s.resolving.flightOf? n := rfl
  unfold claimLookup FlightTable.claimBatch
  simp only [Name.distinct, List.filter_nil, FlightTable.claimNames, FlightTable.claimName, hof]
  cases hf : s.resolving.flightOf? n with
  | some f =>
    simp only [Claims.start, List.nil_append]
    cases limits.total? with
    | none => exact .followOverflow hf
    | some w =>
      cases w with
      | none => exact .follow hf
      | some wait =>
        simp only
        split
        · exact .follow hf
        · exact .followOverflow hf
  | none =>
    cases hs : s.store.contains n with
    | true => exact .skip hf hs
    | false => exact .lead hf hs

theorem callMove_of_advance {cfg : Settings} {s t : State} {call : Nat} {st st' : Stage}
    (h : s.advance cfg call st = some (t, st')) :
    CallMove cfg s call (.advance call) st t st' := by
  -- stage by stage, with the moves of batches inside lookups as they are
  cases st with
  | recalling n =>
    obtain ⟨rfl, rfl⟩ : _ ∧ _ := by simpa [advance] using h
    exact .peek
  | looking n limits =>
    simp only [advance, State.read] at h
    cases hg : s.store.get? n with
    | some a =>
      obtain ⟨rfl, rfl⟩ : _ ∧ _ := by simpa [hg] using h
      exact .hit hg
    | none =>
      obtain ⟨rfl, rfl⟩ : _ ∧ _ := by simpa [hg] using h
      exact .miss hg
  | missed n limits =>
    cases hr : cfg.isRemote n with
    | true =>
      obtain ⟨rfl, rfl⟩ : _ ∧ _ := by simpa [advance, hr] using h
      exact .isRemote hr
    | false =>
      obtain ⟨rfl, rfl⟩ : _ ∧ _ := by simpa [advance, hr] using h
      exact .isLocal hr
  | remembering n limits =>
    simp only [advance] at h
    split at h
    · rename_i hf
      obtain ⟨rfl, rfl⟩ : _ ∧ _ := by simpa using h
      exact .forgetful hf
    · rename_i f hf
      split at h
      · rename_i hl
        obtain ⟨rfl, rfl⟩ : _ ∧ _ := by simpa using h
        exact .remembered hf hl
      · rename_i hl
        obtain ⟨rfl, rfl⟩ : _ ∧ _ := by simpa using h
        exact .forgotten hf hl
  | claiming n limits =>
    obtain ⟨rfl, rfl⟩ := Prod.mk.inj (Option.some.inj h)
    exact callMove_claim n limits
  | rereading n =>
    obtain ⟨rfl, rfl⟩ : _ ∧ _ := by simpa [advance] using h
    exact .reread
  | following n f timeout deadline =>
    simp only [advance] at h
    split at h
    · rename_i hf
      obtain ⟨rfl, rfl⟩ : _ ∧ _ := by simpa using h
      exact .share hf
    · rename_i hf
      obtain ⟨rfl, rfl⟩ : _ ∧ _ := by simpa using h
      exact .shareLoss hf
    · cases h
  | departing n limits g =>
    obtain ⟨rfl, rfl⟩ : _ ∧ _ := by simpa [advance] using h
    exact .depart
  | fetching n limits g deadline => cases h
  | compiling n g b =>
    simp only [advance, Option.map_eq_some_iff] at h
    obtain ⟨⟨s₁, next⟩, hb, he⟩ := h
    obtain ⟨rfl, rfl⟩ := Prod.mk.inj he
    exact .compile (batchMove_of_advance hb)
  | rechecking n g =>
    obtain ⟨rfl, rfl⟩ : _ ∧ _ := by simpa [advance] using h
    exact .recheck
  | recording n g r =>
    obtain ⟨rfl, rfl⟩ : _ ∧ _ := by simpa [advance] using h
    exact .record
  | releasing g ending =>
    obtain ⟨rfl, rfl⟩ : _ ∧ _ := by simpa [advance] using h
    exact .release
  | landing g ending =>
    obtain ⟨rfl, rfl⟩ : _ ∧ _ := by simpa [advance] using h
    exact .land
  | batch b =>
    simp only [advance, Option.map_eq_some_iff] at h
    obtain ⟨⟨s₁, next⟩, hb, he⟩ := h
    obtain ⟨rfl, rfl⟩ := Prod.mk.inj he
    exact .own (batchMove_of_advance hb)
  | finished answer => cases h

theorem callMove_of_expire {cfg : Settings} {s t : State} {call : Nat} {st st' : Stage}
    (h : s.expire st = some (t, st')) : CallMove cfg s call (.expire call) st t st' := by
  unfold expire at h
  split at h
  · split at h
    · rename_i hf
      split at h
      · obtain ⟨rfl, rfl⟩ : _ ∧ _ := by simpa using h
        exact .expireWait hf (quiet_tell _ _)
      · cases h
    · cases h
  · split at h
    · split at h
      · obtain ⟨rfl, rfl⟩ : _ ∧ _ := by simpa using h
        exact .expireFetch (quiet_tell _ _)
      · cases h
    · cases h
  · simp only [Option.map_eq_some_iff] at h
    obtain ⟨⟨s₁, next⟩, hb, he⟩ := h
    obtain ⟨rfl, rfl⟩ := Prod.mk.inj he
    exact .compile (batchMove_of_expire hb)
  · simp only [Option.map_eq_some_iff] at h
    obtain ⟨⟨s₁, next⟩, hb, he⟩ := h
    obtain ⟨rfl, rfl⟩ := Prod.mk.inj he
    exact .own (batchMove_of_expire hb)
  · cases h

theorem callMove_of_fetched {cfg : Settings} {s t : State} {call : Nat} {reply : FetchReply}
    {st st' : Stage} (h : s.receiveFetch cfg reply st = some (t, st')) :
    CallMove cfg s call (.fetched call reply) st t st' := by
  unfold receiveFetch at h
  split at h
  · cases reply with
    | unit u =>
      obtain ⟨rfl, rfl⟩ : _ ∧ _ := by simpa using h
      exact .fetched
    | missing =>
      obtain ⟨rfl, rfl⟩ : _ ∧ _ := by simpa using h
      exact .unfetched (quiet_tell _ _)
    | failed e =>
      obtain ⟨rfl, rfl⟩ : _ ∧ _ := by simpa using h
      exact .unfetched (quiet_tell _ _)
    | crashed =>
      obtain ⟨rfl, rfl⟩ : _ ∧ _ := by simpa using h
      exact .unfetched (.refl _)
  · cases h

theorem CallMove.mover {cfg : Settings} {s t : State} {call : Nat} {a : Action} {st st' : Stage}
    (h : CallMove cfg s call a st t st') : a.mover? = some call := by
  cases h with
  | compile hb => exact hb.mover
  | own hb => exact hb.mover
  | _ => rfl

/-! ## The engine -/

/-- The moves of an engine and of its surroundings. -/
inductive Step (cfg : Settings) (s : State) : Action → State → Prop where
  | call (r : Request) : Step cfg s (.call r) { s with calls := s.calls ++ [r.stage] }
  | move {id a st t st'} : s.calls[id]? = some st → CallMove cfg s id a st t st' →
      Step cfg s a (t.setCall id st')
  /-- A job gets the compiler. -/
  | occupy {id j} : s.jobs[id]? = some j → j.stage = .queued → s.occupant = none →
      Step cfg s (.prepare id) ({ s with occupant := some id }.setJob id .preparing)
  | launch {id j processors t} : s.jobs[id]? = some j → j.stage = .preparing → s.Quiet t →
      Step cfg s (.prepare id) (t.setJob id (.running processors))
  | built {id j processors} (reply : BuildReply) : s.jobs[id]? = some j →
      j.stage = .running processors →
      Step cfg s (.built id reply)
        ({ s with occupant := if s.occupant = some id then none else s.occupant }.setJob id
          (.returned (.ended reply)))
  /-- A job cannot be begun. -/
  | founder {id j} : s.jobs[id]? = some j → s.occupant ≠ some id →
      j.stage = .queued ∨ j.stage = .preparing →
      Step cfg s (.founder id) (s.setJob id (.returned .unstarted))
  | put {a o store} : s.store.put a = .ok (o, store) → Step cfg s (.put a) { s with store := store }
  | putAll {as names store} : s.store.putAll as = .ok (names, store) →
      Step cfg s (.putAll as) { s with store := store }
  /-- The store refuses artifacts, failures are forgotten, or time passes. -/
  | quiet {a t} : a.isInner = false → s.Quiet t → Step cfg s a t

theorem step_of_act {cfg : Settings} {s t : State} {a : Action} (h : s.act cfg a = some t) :
    Step cfg s a t := by
  cases a with
  | call r =>
    obtain rfl : _ = t := by simpa [act] using h
    exact .call r
  | advance id =>
    simp only [act, Option.bind_eq_some_iff, Option.map_eq_some_iff] at h
    obtain ⟨st, hst, ⟨s₁, st'⟩, hm, rfl⟩ := h
    exact .move hst (callMove_of_advance hm)
  | expire id =>
    simp only [act, Option.bind_eq_some_iff, Option.map_eq_some_iff] at h
    obtain ⟨st, hst, ⟨s₁, st'⟩, hm, rfl⟩ := h
    exact .move hst (callMove_of_expire hm)
  | fetched id reply =>
    simp only [act, Option.bind_eq_some_iff, Option.map_eq_some_iff] at h
    obtain ⟨st, hst, ⟨s₁, st'⟩, hm, rfl⟩ := h
    exact .move hst (callMove_of_fetched hm)
  | prepare id =>
    simp only [act, Option.bind_eq_some_iff] at h
    obtain ⟨j, hj, hp⟩ := h
    unfold prepare at hp
    split at hp
    · rename_i hs
      split at hp
      · rename_i ho
        obtain rfl : _ = t := by simpa using hp
        exact .occupy hj hs (by simpa using ho)
      · cases hp
    · rename_i hs
      obtain rfl : _ = t := by simpa using hp
      exact .launch hj hs (quiet_tell _ _)
    · cases hp
  | built id reply =>
    simp only [act, Option.bind_eq_some_iff] at h
    obtain ⟨j, hj, hf⟩ := h
    unfold finishJob at hf
    split at hf
    · rename_i hs
      obtain rfl : _ = t := by simpa using hf
      exact .built reply hj hs
    · cases hf
  | founder id =>
    simp only [act, Option.bind_eq_some_iff] at h
    obtain ⟨j, hj, hf⟩ := h
    obtain ⟨⟨hfree, hs⟩, hf⟩ := Option.ite_none_right_eq_some.mp hf
    obtain rfl := Option.some.inj hf
    exact .founder hj hfree hs
  | put a =>
    simp only [act] at h
    split at h
    · rename_i hp
      obtain rfl : _ = t := by simpa using h
      exact .put hp
    · obtain rfl : _ = t := by simpa using h
      exact .quiet rfl (.refl _)
  | putAll as =>
    simp only [act] at h
    split at h
    · rename_i hp
      obtain rfl : _ = t := by simpa using h
      exact .putAll hp
    · obtain rfl : _ = t := by simpa using h
      exact .quiet rfl (.refl _)
  -- what else a host does leaves calls, jobs and tables alone
  | forget n =>
    obtain rfl : _ = t := by simpa [act] using h
    exact .quiet rfl ⟨rfl, rfl, rfl, rfl, rfl, rfl, rfl⟩
  | clearFailures =>
    obtain rfl : _ = t := by simpa [act] using h
    exact .quiet rfl ⟨rfl, rfl, rfl, rfl, rfl, rfl, rfl⟩
  | elapse nanos =>
    obtain rfl : _ = t := by simpa [act] using h
    exact .quiet rfl ⟨rfl, rfl, rfl, rfl, rfl, rfl, rfl⟩

end OnDemand.Engine
