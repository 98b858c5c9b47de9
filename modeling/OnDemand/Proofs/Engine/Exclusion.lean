import OnDemand.Proofs.Engine.Submission

/-!
# Who compiles a name

A batch compiles the names it leads and those it has taken over: names that it has waited for and
that their flight has ended without storing. The table keeps leaders apart, but nothing keeps apart
those who take a name over, so two calls compile one name at a time exactly when one of them has
taken it over beside another (`compiled_once_iff`).
-/

namespace OnDemand.Engine

open State FlightTable

variable {cfg : Settings} {s t : State} {a : Action} {i j f : Nat} {n : Name}

namespace BatchStage

def compiled : BatchStage → List Name
  | building _ submitted _ _ => submitted
  | storing _ submitted _ => submitted
  | _ => []

def Listed : BatchStage → Prop
  | building b submitted _ _ => submitted = b.submission.map (·.name)
  | storing b submitted _ => submitted = b.submission.map (·.name)
  | _ => True

def awaits : BatchStage → List (Name × Nat)
  | claiming _ _ _ c => c.followed
  | following _ rest _ => rest
  | checking _ _ rest => rest
  | _ => []

end BatchStage

/-- A call has handed a name to the compiler and has not got and stored the output yet. -/
def State.Compiles (s : State) (i : Nat) (n : Name) : Prop :=
  ∃ b, s.view Stage.batch? i = some b ∧ n ∈ b.compiled

/-! ## What the stages of a batch keep -/

theorem Onward.listed {now : Moment} {b : Batch} {rest : List (Name × Nat)} {next : BatchStage ⊕ BatchEnd}
    {b' : BatchStage} (h : Onward now b rest next) (hb : next.getLeft? = some b') : b'.Listed := by
  rcases h.stage hb with ⟨-, rfl⟩ | ⟨deadline, rfl⟩ | rfl <;> exact trivial

theorem listed_endBatch {c : Claims} {ending : BatchEnd} {b' : BatchStage}
    (hb : (endBatch c ending).getLeft? = some b') : b'.Listed := by
  rw [endBatch_stage hb]
  exact trivial

theorem BatchMove.listed {b b' : BatchStage} {next : BatchStage ⊕ BatchEnd}
    (h : BatchMove cfg s i a b t next) (hb : next.getLeft? = some b') (hl : b.Listed) :
    b'.Listed := by
  cases h with
  | claimed ho => exact ho.listed hb
  | join _ ho => exact ho.listed hb
  | takeOver _ ho => exact ho.listed hb
  | submit =>
    obtain rfl := Option.some.inj hb
    exact rfl
  | receive =>
    obtain rfl := Option.some.inj hb
    exact hl
  | idle | fail | keep | conflict | expireWait | expireBuild =>
    exact listed_endBatch hb
  | land => cases hb
  | _ =>
    obtain rfl := Option.some.inj hb
    exact trivial

theorem Onward.awaits {now : Moment} {b : Batch} {rest : List (Name × Nat)} {next : BatchStage ⊕ BatchEnd}
    {b' : BatchStage} (h : Onward now b rest next) (hb : next.getLeft? = some b')
    (hf : (n, f) ∈ b'.awaits) : (n, f) ∈ rest := by
  rcases h.stage hb with ⟨-, rfl⟩ | ⟨deadline, rfl⟩ | rfl
  · cases hf
  · exact hf
  · cases hf

theorem awaits_endBatch {c : Claims} {ending : BatchEnd} {b' : BatchStage}
    (hb : (endBatch c ending).getLeft? = some b') : b'.awaits = [] := by
  rw [endBatch_stage hb]
  rfl

theorem BatchMove.awaits {b b' : BatchStage} {next : BatchStage ⊕ BatchEnd}
    (h : BatchMove cfg s i a b t next) (hb : next.getLeft? = some b') (hf : (n, f) ∈ b'.awaits) :
    (n, f) ∈ b.awaits ∨ ∃ units limits rest c, b = .claiming units limits (n :: rest) c ∧
      s.building.flightOf? n = some f := by
  -- only a name that is found in flight comes to be waited for
  cases h with
  | follow hn =>
    obtain rfl := Option.some.inj hb
    rcases List.mem_append.mp hf with hf | hf
    · exact Or.inl hf
    · obtain ⟨rfl, rfl⟩ := Prod.mk.inj (List.mem_singleton.mp hf)
      exact Or.inr ⟨_, _, _, _, rfl, hn⟩
  | claimed ho => exact Or.inl (ho.awaits hb hf)
  | join _ ho => exact Or.inl (ho.awaits hb hf)
  | takeOver _ ho => exact Or.inl (ho.awaits hb hf)
  | arrive =>
    obtain rfl := Option.some.inj hb
    exact Or.inl (List.mem_cons_of_mem _ hf)
  | skip =>
    obtain rfl := Option.some.inj hb
    exact Or.inl hf
  | lead =>
    obtain rfl := Option.some.inj hb
    exact Or.inl hf
  | idle | fail | keep | conflict | expireWait | expireBuild =>
    cases (awaits_endBatch hb) ▸ hf
  | land => cases hb
  | _ =>
    obtain rfl := Option.some.inj hb
    cases hf

theorem BatchMove.arrived {b : BatchStage} {next : BatchStage ⊕ BatchEnd} {b₁ : Batch}
    {rest : List (Name × Nat)} (h : BatchMove cfg s i a b t next)
    (hb : next.getLeft? = some (.checking b₁ n rest)) :
    ∃ f, (n, f) ∈ b.awaits ∧ s.building.flight? f ≠ some .pending := by
  cases h with
  | arrive hf =>
    obtain ⟨rfl, rfl, rfl⟩ := BatchStage.checking.inj (Option.some.inj hb)
    exact ⟨_, by simp [BatchStage.awaits], hf⟩
  | claimed ho => rcases ho.stage hb with ⟨-, h⟩ | ⟨_, h⟩ | h <;> cases h
  | join _ ho => rcases ho.stage hb with ⟨-, h⟩ | ⟨_, h⟩ | h <;> cases h
  | takeOver _ ho => rcases ho.stage hb with ⟨-, h⟩ | ⟨_, h⟩ | h <;> cases h
  | idle | fail | keep | conflict | expireWait | expireBuild =>
    cases endBatch_stage hb
  | _ => cases hb

/-! ## Where a wait comes from -/

section
variable {now : Moment} {store : Store} {ttl : Option Duration} {past : List (State × Action)}

/-- Some batch of the run has had a name in the table under a flight. -/
def Led (past : List (State × Action)) (s : State) (n : Name) (f : Nat) : Prop :=
  ∃ u ∈ visited past s, ∃ j, Has (u.view Stage.batchGuard? j) n f

theorem Led.step (h : Led past s n f) : Led (past ++ [(s, a)]) t n f := by
  obtain ⟨u, hu, hj⟩ := h
  exact ⟨u, mem_visited_step.mpr (Or.inl hu), hj⟩

theorem Step.batches_length (h : Step cfg s a t) :
    s.building.flights.length ≤ t.building.flights.length := by
  cases h with
  | move hc hm => exact hm.building.flights_length
  | launch _ _ hq => exact Nat.le_of_eq (congrArg (·.flights.length) hq.building.symm)
  | quiet _ hq => exact Nat.le_of_eq (congrArg (·.flights.length) hq.building.symm)
  | _ => exact Nat.le_refl _

theorem Step.batch_ended (h : Step cfg s a t) {o : Flight (Option CallError)}
    (hf : s.building.flight? f = some o) (ho : o ≠ .pending) : t.building.flight? f = some o := by
  cases h with
  | move hc hm => exact hm.building.flight?_ended hf ho
  | launch _ _ hq =>
    rw [State.setJob_building, hq.building]
    exact hf
  | quiet _ hq =>
    rw [hq.building]
    exact hf
  | _ => exact hf

theorem Run.led_ended (h : Run cfg (.fresh now store ttl) past s) (hl : Led past s n f)
    (hf : s.building.flight? f ≠ some .pending) :
    ∃ o, s.building.flight? f = some o ∧ o ≠ .pending := by
  obtain ⟨u, hu, j, γ, hγ, rfl, -⟩ := hl
  have horder : Orderly u := h.invariant_visited Orderly.step (orderly_fresh _ _ _) hu
  obtain ⟨hlt, -⟩ := List.getElem?_eq_some_iff.mp (horder.batches.pending hγ)
  have hlen := h.since (R := fun s t => s.building.flights.length ≤ t.building.flights.length)
    Step.batches_length (fun _ => Nat.le_refl _) Nat.le_trans hu
  have hsome : s.building.flight? γ.flight = some _ :=
    List.getElem?_eq_getElem (Nat.lt_of_lt_of_le hlt hlen)
  refine ⟨_, hsome, fun ho => hf ?_⟩
  rw [hsome, ho]

/-- Each flight that a batch waits for has had the name that it waits for, and the flight of a name
that it is about to check has ended. -/
structure Awaits (past : List (State × Action)) (s : State) (b : BatchStage) : Prop where
  led : ∀ n f, (n, f) ∈ b.awaits → Led past s n f
  ended : ∀ b₁ n rest, b = .checking b₁ n rest →
    ∃ f, Led past s n f ∧ ∃ o, s.building.flight? f = some o ∧ o ≠ .pending

theorem Awaits.step {b : BatchStage} (h : Awaits past s b) (hst : Step cfg s a t) :
    Awaits (past ++ [(s, a)]) t b where
  led := fun n f hf => (h.led n f hf).step
  ended := by
    intro b₁ n rest hb
    obtain ⟨f, hl, o, hf, ho⟩ := h.ended b₁ n rest hb
    exact ⟨f, hl.step, o, hst.batch_ended hf ho, ho⟩

theorem Run.awaits (h : Run cfg (.fresh now store ttl) past s) :
    ∀ {i b}, s.view Stage.batch? i = some b → Awaits past s b := by
  induction h with
  | start =>
    intro i b hb
    rw [view_fresh] at hb
    cases hb
  | @step past s a t hr ha ih =>
    have hst := step_of_act ha
    intro i b' hb'
    -- the batch stays as it was, has just been asked for, or moves
    rcases hst.batch_after hb' with hb | ⟨units, limits, rfl⟩ | ⟨b, u, next, st', hb, hm, hn, -⟩
    · exact (ih hb).step hst
    · constructor
      · intro n f hf
        cases hf
      · intro b₁ n rest he
        cases he
    · have hlast : s ∈ visited past s := mem_visited.mpr (Or.inl rfl)
      constructor
      · intro n f hf
        rcases hm.awaits hn hf with hf | ⟨_, _, _, _, -, hf⟩
        · exact ((ih hb).led n f hf).step
        · obtain ⟨j, hj⟩ := hr.orderly.batches.claimed_iff.mp (mem_of_flightOf? hf)
          exact Led.step ⟨s, hlast, j, hj⟩
      · rintro b₁ n rest rfl
        obtain ⟨f, hf, hp⟩ := hm.arrived hn
        have hl := (ih hb).led n f hf
        obtain ⟨o, hf, ho⟩ := hr.led_ended hl hp
        exact ⟨f, hl.step, o, hst.batch_ended hf ho, ho⟩

theorem Run.taken_over (h : Run cfg (.fresh now store ttl) past s)
    (hl : Looked past i ⟨n, true, false⟩) :
    ∃ u ∈ visited past s, u.store.contains n = false ∧
      ∃ f, Led past s n f ∧ ∃ o, u.building.flight? f = some o ∧ o ≠ .pending := by
  obtain ⟨p, hp, hlook⟩ := hl
  obtain ⟨before, after, u, rfl, hb, -, -⟩ := h.split hp
  simp only [look?, Option.ite_none_right_eq_some, Option.bind_eq_some_iff] at hlook
  obtain ⟨-, b, hview, hlook⟩ := hlook
  unfold BatchStage.look? at hlook
  split at hlook
  · split at hlook
    · cases hlook
    · cases hlook
  · obtain ⟨rfl, -, hn⟩ := Look.mk.inj (Option.some.inj hlook)
    obtain ⟨f, ⟨v, hv, hj⟩, ho⟩ := (hb.awaits hview).ended _ _ _ rfl
    exact ⟨p.1, mem_visited.mpr (Or.inr ⟨p.2, hp⟩), hn, f, ⟨v, visited_before hv, hj⟩, ho⟩
  · cases hlook

/-! ## Exclusion -/

theorem Run.listed (h : Run cfg (.fresh now store ttl) past s) :
    ∀ i b, s.view Stage.batch? i = some b → b.Listed := by
  refine h.invariant (P := fun s => ∀ i b, s.view Stage.batch? i = some b → b.Listed) ?_ ?_
  · intro s a t hs hst
    exact hst.batches (fun _ _ => trivial) (fun hm hb hl => hm.listed hb hl) hs
  · intro i b hb
    rw [view_fresh] at hb
    cases hb

theorem Run.compiles (h : Run cfg (.fresh now store ttl) past s) (hc : s.Compiles i n) :
    (∃ w, Looked past i ⟨n, w, false⟩) ∧
      ((∃ f, Has (s.view Stage.batchGuard? i) n f) ↔ Looked past i ⟨n, false, false⟩) := by
  obtain ⟨b, hb, hn⟩ := hc
  have hlisted := h.listed i b hb
  have hguard : s.view Stage.batchGuard? i = b.guard? := by
    obtain ⟨st, hi, hst⟩ := view_eq_some.mp hb
    rw [view_of_call hi, Stage.batchGuard?, hst]
    rfl
  have hr : ∀ l, b.ledger? = some l → l.Recorded past i :=
    fun l hl => h.recorded ((State.ledger?_of_batch hb).trans hl)
  rw [hguard]
  -- what is compiled has been submitted, so it was looked for and lacking
  cases b with
  | building b submitted job deadline =>
    obtain rfl : submitted = _ := hlisted
    refine ⟨((hr _ rfl).lacking n).mp (Batch.mem_submission.mp hn).2, ?_⟩
    rw [← (hr _ rfl).led n]
    simp [BatchStage.guard?, has_some]
  | storing b submitted output =>
    obtain rfl : submitted = _ := hlisted
    refine ⟨((hr _ rfl).lacking n).mp (Batch.mem_submission.mp hn).2, ?_⟩
    rw [← (hr _ rfl).led n]
    simp [BatchStage.guard?, has_some]
  | _ => cases hn

theorem Run.looked_once (h : Run cfg (.fresh now store ttl) past s) (hc : s.Compiles i n)
    {l l' : Look} (hl : Looked past i l) (hl' : Looked past i l') (he : l.name = l'.name) :
    l = l' := by
  obtain ⟨b, hb, hn⟩ := hc
  cases b with
  | building => exact (h.recorded (State.ledger?_of_batch hb)).once hl hl' he
  | storing => exact (h.recorded (State.ledger?_of_batch hb)).once hl hl' he
  | _ => cases hn

/-- Two calls compile one name at a time exactly if one of them has taken it over beside another.
A call that compiles a name has it in the table exactly if it has not taken it over, and a name is
taken over only from a flight that has ended without storing it. -/
theorem compiled_once_iff (h : Run cfg (.fresh now store ttl) past s) :
    (∀ n, (∀ i j, s.Compiles i n → s.Compiles j n → i = j) ↔
      ∀ i j, s.Compiles i n → s.Compiles j n → Looked past i ⟨n, true, false⟩ → i = j) ∧
    (∀ i n, s.Compiles i n → ((∃ f, Has (s.view Stage.batchGuard? i) n f) ↔
      ¬ Looked past i ⟨n, true, false⟩)) ∧
    (∀ i n, Looked past i ⟨n, true, false⟩ → ∃ u ∈ visited past s, u.store.contains n = false ∧
      ∃ f, Led past s n f ∧ ∃ o, u.building.flight? f = some o ∧ o ≠ .pending) := by
  have hholds : ∀ i n, s.Compiles i n → ((∃ f, Has (s.view Stage.batchGuard? i) n f) ↔
      ¬ Looked past i ⟨n, true, false⟩) := by
    intro i n hc
    obtain ⟨⟨w, hl⟩, hiff⟩ := h.compiles hc
    rw [hiff]
    constructor
    · intro hled htaken
      cases h.looked_once hc hled htaken rfl
    · intro htaken
      cases w with
      | true => exact absurd hl htaken
      | false => exact hl
  refine ⟨fun n => ⟨fun hone i j hi hj _ => hone i j hi hj, fun hone i j hi hj => ?_⟩, hholds,
    fun i n => h.taken_over⟩
  by_cases hti : Looked past i ⟨n, true, false⟩
  · exact hone i j hi hj hti
  · by_cases htj : Looked past j ⟨n, true, false⟩
    · exact (hone j i hj hi htj).symm
    -- neither has taken the name over, so both have it in the table
    · obtain ⟨f, hf⟩ := (hholds i n hi).mpr hti
      obtain ⟨f', hf'⟩ := (hholds j n hj).mpr htj
      exact h.orderly.batches.once hf hf'

end

/-! ## A name taken over twice -/

/-- Three batches of `x`: the first leads and fails, and the others have waited for it. -/
def bereaved : List Action :=
  List.flatten
    [List.replicate 3 (.call (.compile [Sample.unit Sample.x] .unbounded)),
      List.replicate 4 (.advance 0), List.replicate 3 (.advance 1), List.replicate 3 (.advance 2),
      [.prepare 0, .built 0 (.failed ⟨"boom", [], []⟩)],
      List.replicate 3 (.advance 0), List.replicate 3 (.advance 1), List.replicate 3 (.advance 2)]

def heir (flight job : Nat) : BatchStage :=
  .building ⟨[Sample.unit Sample.x], .unbounded, ⟨flight, [], [(Sample.x, 0)], []⟩, [Sample.x], []⟩
    [Sample.x] job none

theorem compiled_once_iff_bereaved :
    ∃ past s, Run Sample.settings (.fresh 0 .empty none) past s ∧ s.Compiles 1 Sample.x ∧
      ((∃ f, Has (s.view Stage.batchGuard? 1) Sample.x f) ↔
        ¬ Looked past 1 ⟨Sample.x, true, false⟩) ∧
      ((∀ i j, s.Compiles i Sample.x → s.Compiles j Sample.x → i = j) ↔
        ∀ i j, s.Compiles i Sample.x → s.Compiles j Sample.x →
          Looked past i ⟨Sample.x, true, false⟩ → i = j) := by
  have hperform : ((State.fresh 0 .empty none).perform Sample.settings bereaved).any fun r =>
      r.2.view Stage.batch? 1 = some (heir 1 1) := by
    decide +kernel
  obtain ⟨past, s, hrun, hview⟩ := Run.of_any hperform
  have hc : s.Compiles 1 Sample.x := ⟨_, hview, by simp [heir, BatchStage.compiled]⟩
  obtain ⟨hone, hholds, -⟩ := compiled_once_iff hrun
  exact ⟨past, s, hrun, hc, hholds 1 Sample.x hc, hone Sample.x⟩

/-- The two batches that have waited compile `x` at the same time, and neither has a claim on it. -/
theorem name_compiled_twice :
    ∃ past s, Run Sample.settings (.fresh 0 .empty none) past s ∧
      s.Compiles 1 Sample.x ∧ s.Compiles 2 Sample.x ∧ s.building.claimed = [] := by
  have hperform : ((State.fresh 0 .empty none).perform Sample.settings bereaved).any fun r =>
      r.2.view Stage.batch? 1 = some (heir 1 1) ∧ r.2.view Stage.batch? 2 = some (heir 2 2) ∧
        r.2.building.claimed = [] := by
    decide +kernel
  obtain ⟨past, s, hrun, h₁, h₂, hclaimed⟩ := Run.of_any hperform
  exact ⟨past, s, hrun, ⟨_, h₁, by simp [heir, BatchStage.compiled]⟩,
    ⟨_, h₂, by simp [heir, BatchStage.compiled]⟩, hclaimed⟩

end OnDemand.Engine
