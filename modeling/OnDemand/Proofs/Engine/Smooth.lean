import OnDemand.Proofs.Engine.Turns

/-!
# Runs in which everything succeeds

In a smooth run no wait is given up and each job ends with an artifact for each of its units, whose
payload depends on the name alone. `Sound` says what such a run keeps as long as no batch begins a wait
that ends beyond what the clock can show: what has been submitted is held by its batch until it is
stored, so nothing is submitted twice.
-/

namespace OnDemand.Engine

open State FlightTable

/-! ## Smooth moves -/

/-- An output has an artifact for each unit, and each payload is the one that its name always has. -/
def Covers (payload : Name → ByteArray) (units : List SourceUnit) (o : BuildOutput) : Prop :=
  (∀ u ∈ units, ∃ a ∈ o.artifacts, a.name = u.name) ∧
    ∀ a ∈ o.artifacts, a.payload = payload a.name

instance (payload : Name → ByteArray) (units : List SourceUnit) (o : BuildOutput) :
    Decidable (Covers payload units o) :=
  inferInstanceAs (Decidable (_ ∧ _))

/-- A move in which nothing goes wrong. -/
def Smooth (payload : Name → ByteArray) (s : State) : Action → Prop
  | .expire _ => False
  | .founder _ => False
  | .built k reply => ∀ j, s.jobs[k]? = some j → ∃ o, reply = .output o ∧ Covers payload j.units o
  | .put a => a.payload = payload a.name
  | .putAll as => ∀ a ∈ as, a.payload = payload a.name
  | _ => True

instance (payload : Name → ByteArray) (units : List SourceUnit) :
    (reply : BuildReply) → Decidable (∃ o, reply = .output o ∧ Covers payload units o)
  | .output o => decidable_of_iff (Covers payload units o) (by simp)
  | .failed _ => isFalse (by simp)
  | .crashed => isFalse (by simp)

instance (payload : Name → ByteArray) (s : State) : (a : Action) → Decidable (Smooth payload s a)
  | .expire _ => inferInstanceAs (Decidable False)
  | .founder _ => inferInstanceAs (Decidable False)
  | .built k _ => inferInstanceAs (Decidable (∀ j ∈ s.jobs[k]?, ∃ o, _ = BuildReply.output o ∧ _))
  | .put _ => inferInstanceAs (Decidable (_ = _))
  | .putAll as => inferInstanceAs (Decidable (∀ a ∈ as, _))
  | .call _ => inferInstanceAs (Decidable True)
  | .advance _ => inferInstanceAs (Decidable True)
  | .fetched _ _ => inferInstanceAs (Decidable True)
  | .prepare _ => inferInstanceAs (Decidable True)
  | .forget _ => inferInstanceAs (Decidable True)
  | .clearFailures => inferInstanceAs (Decidable True)
  | .elapse _ => inferInstanceAs (Decidable True)

/-- A batch is about to begin a wait whose end the clock cannot show. -/
def BatchStage.Overruns (now : Moment) : BatchStage → Prop
  | claiming _ limits [] c =>
    c.followed ≠ [] ∧ ∃ limit, limits.compile = some limit ∧ Moment.after? now limit = none
  | checking b _ rest =>
    rest ≠ [] ∧ ∃ limit, b.limits.compile = some limit ∧ Moment.after? now limit = none
  | _ => False

def State.Overruns (s : State) (a : Action) : Prop :=
  ∃ i b, a = .advance i ∧ s.view Stage.batch? i = some b ∧ b.Overruns s.now

instance (now : Moment) (rest : List (Name × Nat)) (limits : Limits) :
    Decidable (rest ≠ [] ∧ ∃ limit, limits.compile = some limit ∧ Moment.after? now limit = none) :=
  inferInstanceAs (Decidable (_ ∧ ∃ limit ∈ limits.compile, _))

instance (now : Moment) : (b : BatchStage) → Decidable (b.Overruns now)
  | .claiming _ _ [] _ => inferInstanceAs (Decidable (_ ≠ [] ∧ _))
  | .checking _ _ _ => inferInstanceAs (Decidable (_ ≠ [] ∧ _))
  | .claiming _ _ (_ :: _) _ => inferInstanceAs (Decidable False)
  | .entering _ _ | .following _ _ _ | .submitting _ | .building _ _ _ _ | .storing _ _ _
  | .releasing _ _ | .landing _ _ => inferInstanceAs (Decidable False)

instance (s : State) : (a : Action) → Decidable (s.Overruns a)
  | .advance i =>
    decidable_of_iff (∃ b ∈ s.view Stage.batch? i, b.Overruns s.now) (by simp [State.Overruns])
  | .call _ | .expire _ | .fetched _ _ | .prepare _ | .built _ _ | .founder _ | .put _ | .putAll _
  | .forget _ | .clearFailures | .elapse _ => isFalse (by simp [State.Overruns])

def outcome? : BatchStage ⊕ BatchEnd → Option BatchEnd
  | .inl (.releasing _ e) => some e
  | .inl _ => none
  | .inr e => some e

def State.outcome? (cfg : Settings) (s : State) : Action → Option BatchEnd
  | .advance i =>
    (s.view Stage.batch? i).bind fun b =>
      (s.advanceBatch cfg i b).bind fun r => Engine.outcome? r.2
  | _ => none

def State.submitted (s : State) : List Name :=
  s.jobs.flatMap (·.units.map (·.name))

/-! ## What is kept -/

/-- A batch has been answered with all its names stored. -/
def Fine (s : State) (e : BatchEnd) : Prop :=
  ∃ r, e = .reported r ∧ ∀ n ∈ r.requested, s.store.contains n = true

namespace BatchStage

def Tidy (payload : Name → ByteArray) (s : State) : BatchStage → Prop
  | checking _ n _ => s.store.contains n = true
  | building b _ k _ => ∃ j, s.jobs[k]? = some j ∧ j.units = b.submission
  | storing b _ o => Covers payload b.submission o
  | releasing g e => Fine s e ∧ ∀ n ∈ g.names, s.store.contains n = true
  | landing _ e => Fine s e
  | _ => True

def Spent : BatchStage → Prop
  | building _ _ _ _ => True
  | storing _ _ _ => True
  | releasing _ _ => True
  | _ => False

end BatchStage

/-- A batch leads all it is going to submit, and the names it waits for are in the table or stored. -/
structure Clean (payload : Name → ByteArray) (s : State) (b : BatchStage) : Prop where
  led : ∀ l, b.ledger? = some l → ∀ n ∈ l.lacking, n ∈ l.led
  awaited : ∀ n f, (n, f) ∈ b.awaits → (n, f) ∈ s.building.claimed ∨ s.store.contains n = true
  tidy : b.Tidy payload s

/-- A name that was submitted is still held by its batch, or is stored and free. -/
def State.Accounted (s : State) (n : Name) : Prop :=
  (∃ k b f, s.view Stage.batch? k = some b ∧ b.Spent ∧ Has b.guard? n f) ∨
    (s.store.contains n = true ∧ ∀ f, (n, f) ∉ s.building.claimed)

/-- What a smooth run keeps as long as no batch overruns. -/
structure Sound (payload : Name → ByteArray) (s : State) : Prop where
  agrees : s.store.Agrees payload
  jobs : ∀ {k : Nat} {j : Job} {r : JobEnd}, s.jobs[k]? = some j → j.stage = .returned r →
    ∃ o, r = .ended (.output o) ∧ Covers payload j.units o
  batches : ∀ {i b}, s.view Stage.batch? i = some b → Clean payload s b
  answers : ∀ {i : Nat} {e : BatchEnd}, s.calls[i]? = some (.finished (.batch e)) → Fine s e
  once : s.submitted.Nodup
  accounted : ∀ n ∈ s.submitted, s.Accounted n

def Fair (payload : Name → ByteArray) (s : State) : BatchStage ⊕ BatchEnd → Prop
  | .inl b => Clean payload s b
  | .inr e => Fine s e

section
variable {cfg : Settings} {payload : Name → ByteArray} {s t : State} {a : Action} {i f : Nat}
  {n : Name} {b : BatchStage} {next : BatchStage ⊕ BatchEnd}

theorem Fair.fine (h : Fair payload s next) {e : BatchEnd} (he : outcome? next = some e) :
    Fine s e := by
  rcases next with b | e'
  · cases b with
    | releasing g e' =>
      obtain rfl := Option.some.inj he
      exact (Clean.tidy h).1
    | _ => cases he
  · obtain rfl := Option.some.inj he
    exact h

theorem clean_entering {units : List SourceUnit} {limits : Limits} :
    Clean payload s (.entering units limits) := by
  refine ⟨fun l hl n hn => ?_, fun n f hf => (by cases hf), trivial⟩
  obtain rfl := Option.some.inj hl
  cases hn

theorem clean_claiming {units : List SourceUnit} {limits : Limits} {rest : List Name} {c : Claims}
    (hf : ∀ n f, (n, f) ∈ c.followed → (n, f) ∈ s.building.claimed ∨ s.store.contains n = true) :
    Clean payload s (.claiming units limits rest c) := by
  refine ⟨fun l hl n hn => ?_, hf, trivial⟩
  obtain rfl := Option.some.inj hl
  exact hn

theorem fair_endBatch {c : Claims} {e : BatchEnd} (he : Fine s e)
    (hled : ∀ n ∈ c.led, s.store.contains n = true) : Fair payload s (endBatch c e) := by
  unfold endBatch Claims.guard?
  by_cases hc : c.led.isEmpty = true
  · rw [if_pos hc]
    exact he
  · rw [if_neg hc]
    exact ⟨fun l hl => (by cases hl), fun n f hf => (by cases hf), he, hled⟩

theorem Onward.fair {now : Moment} {b : Batch} {rest : List (Name × Nat)}
    (h : Onward now b rest next)
    (hno : ¬ (rest ≠ [] ∧ ∃ limit, b.limits.compile = some limit ∧ Moment.after? now limit = none))
    (hled : ∀ n ∈ b.pending, n ∈ b.claims.led)
    (hrest : ∀ n f, (n, f) ∈ rest → (n, f) ∈ s.building.claimed ∨ s.store.contains n = true) :
    Fair payload s next := by
  cases h with
  | submit =>
    refine ⟨fun l hl => ?_, fun n f hf => (by cases hf), trivial⟩
    obtain rfl := Option.some.inj hl
    exact hled
  | wait =>
    refine ⟨fun l hl => ?_, hrest, trivial⟩
    obtain rfl := Option.some.inj hl
    exact hled
  | overflow p rest hlimit hnow => exact absurd ⟨by simp, _, hlimit, hnow⟩ hno

/-! ## A batch in a smooth run -/

section
variable {now : Moment} {store : Store} {ttl : Option Duration} {past : List (State × Action)}

theorem Run.stored_of_found (h : Run cfg (.fresh now store ttl) past s) {l : Ledger}
    (hl : l.Recorded past i) (hn : n ∈ l.found) : s.store.contains n = true := by
  obtain ⟨w, hlook⟩ := (hl.found n).mp hn
  obtain ⟨u, hu, hstored⟩ := hlook.visited (s := s)
  exact (h.extends hu).contains hstored

theorem Run.fair_report (h : Run cfg (.fresh now store ttl) past s) {b : Batch}
    {submitted produced : List Name}
    (hr : Ledger.Recorded past i
      ⟨b.requested, b.claims.done ++ b.joined, b.pending, b.claims.led, []⟩)
    (ht : t.store.Extends s.store)
    (hstored : ∀ n ∈ b.submission.map (·.name), t.store.contains n = true) :
    Fair payload t (endBatch b.claims (.reported (b.report submitted produced))) := by
  have hpending : ∀ n ∈ b.pending, n ∈ b.submission.map (·.name) := fun n hn =>
    Batch.mem_submission.mpr ⟨hr.mem_requested.mpr (Or.inr (Or.inl hn)), hn⟩
  refine fair_endBatch ⟨_, rfl, fun n hn => ?_⟩ fun n hn => ?_
  · rcases hr.mem_requested.mp hn with hf | hl | hw
    · exact ht.contains (h.stored_of_found hr hf)
    · exact hstored n (hpending n hl)
    · cases hw
  · exact hstored n (hpending n ((hr.lacking n).mpr ⟨false, (hr.led n).mp hn⟩))

theorem Covers.contains {units : List SourceUnit} {o : BuildOutput} {names : List Name}
    {store' : Store} (h : Covers payload units o) (hp : store.putAll o.artifacts = .ok (names, store'))
    (hn : n ∈ units.map (·.name)) : store'.contains n = true := by
  obtain ⟨u, hu, rfl⟩ := List.mem_map.mp hn
  obtain ⟨art, hart, hname⟩ := h.1 u hu
  rw [← hname]
  exact Store.contains_of_putAll hp hart

/-- A batch is left as it should be by a smooth move that begins no wait without an end. -/
theorem Run.fair (h : Run cfg (.fresh now store ttl) past s) (hs : Sound payload s)
    (hb : s.view Stage.batch? i = some b) (hm : BatchMove cfg s i a b t next)
    (ha : Smooth payload s a) (hno : ¬ s.Overruns a) : Fair payload t next := by
  obtain rfl : a = .advance i := by
    rcases hm.action with rfl | rfl
    · rfl
    · cases ha
  have hno : ¬ b.Overruns s.now := fun ho => hno ⟨i, b, rfl, hb, ho⟩
  have hclean := hs.batches hb
  have hrec : ∀ l, b.ledger? = some l → l.Recorded past i :=
    fun l hl => h.recorded ((State.ledger?_of_batch hb).trans hl)
  cases hm with
  | enter => exact clean_claiming fun n f hf => (by cases hf)
  | follow hf =>
    refine clean_claiming fun n f' hf' => ?_
    rcases List.mem_append.mp hf' with hf' | hf'
    · exact hclean.awaited n f' hf'
    · obtain ⟨rfl, rfl⟩ := Prod.mk.inj (List.mem_singleton.mp hf')
      exact Or.inl (mem_of_flightOf? hf)
  | skip => exact clean_claiming hclean.awaited
  | lead =>
    exact clean_claiming fun n f hf => (hclean.awaited n f hf).imp_left (List.mem_append_left _)
  | claimed ho => exact ho.fair hno (fun _ hn => hn) hclean.awaited
  | @arrive b n f rest deadline hf =>
    refine ⟨hclean.led, fun m f' hf' => hclean.awaited m f' (List.mem_cons_of_mem _ hf'), ?_⟩
    -- a name still in the table would be held, under a flight that has not ended
    rcases hclean.awaited n f List.mem_cons_self with hclaimed | hstored
    · obtain ⟨j, γ, hγ, rfl, -⟩ := h.orderly.batches.claimed_iff.mp hclaimed
      exact absurd (h.orderly.batches.pending hγ) hf
    · exact hstored
  | arriveAll => exact ⟨hclean.led, fun n f hf => (by cases hf), trivial⟩
  | join _ ho => exact ho.fair hno (hclean.led _ rfl) hclean.awaited
  | takeOver hn =>
    have hstored := hclean.tidy
    rw [BatchStage.Tidy, hn] at hstored
    cases hstored
  | idle hsub hq =>
    refine h.fair_report (hrec _ rfl) (by rw [hq.store]; exact .refl _) fun n hn => ?_
    rw [hsub] at hn
    cases hn
  | submit =>
    refine ⟨hclean.led, fun n f hf => (by cases hf), ?_⟩
    exact ⟨_, List.getElem?_concat_length, rfl⟩
  | receive hj hstage =>
    refine ⟨hclean.led, fun n f hf => (by cases hf), ?_⟩
    obtain ⟨j', hj', hunits⟩ := hclean.tidy
    obtain rfl := Option.some.inj (hj.symm.trans hj')
    obtain ⟨o, ho, hcovers⟩ := hs.jobs hj hstage
    obtain rfl := BuildReply.output.inj (JobEnd.ended.inj ho)
    rw [hunits] at hcovers
    exact hcovers
  | fail hj hstage hreply =>
    obtain ⟨o, ho, -⟩ := hs.jobs hj hstage
    exact absurd ho (hreply o)
  | keep hp =>
    have hcovers : Covers payload _ _ := hclean.tidy
    exact h.fair_report (hrec _ rfl) (Store.extends_of_putAll hp) fun n hn => hcovers.contains hp hn
  | conflict hp =>
    obtain ⟨names, store', hok⟩ := Store.putAll_of_agrees hs.agrees hclean.tidy.2
    rw [hok] at hp
    cases hp
  | release => exact ⟨fun l hl => (by cases hl), fun n f hf => (by cases hf), hclean.tidy.1⟩
  | land => exact hclean.tidy

end

/-! ## What a move leaves to the others -/

structure Forward (s t : State) : Prop where
  store : t.store.Extends s.store
  claimed : ∀ n f, (n, f) ∈ s.building.claimed →
    (n, f) ∈ t.building.claimed ∨ t.store.contains n = true
  jobs : ∀ {k : Nat} {j : Job}, s.jobs[k]? = some j → ∃ j', t.jobs[k]? = some j' ∧ j'.units = j.units

theorem Fine.forward {e : BatchEnd} (h : Fine s e) (hst : t.store.Extends s.store) : Fine t e := by
  obtain ⟨r, he, hr⟩ := h
  exact ⟨r, he, fun n hn => hst.contains (hr n hn)⟩

theorem Clean.forward (h : Clean payload s b) (hst : Forward s t) : Clean payload t b := by
  refine ⟨h.led, fun n f hf => ?_, ?_⟩
  · rcases h.awaited n f hf with hc | hn
    · exact hst.claimed n f hc
    · exact Or.inr (hst.store.contains hn)
  · have htidy := h.tidy
    cases b with
    | checking b n rest => exact hst.store.contains htidy
    | building b submitted k deadline =>
      obtain ⟨j, hj, hunits⟩ := htidy
      obtain ⟨j', hj', hunits'⟩ := hst.jobs hj
      exact ⟨j', hj', hunits'.trans hunits⟩
    | storing b submitted o => exact htidy
    | releasing g e => exact ⟨htidy.1.forward hst.store, fun n hn => hst.store.contains (htidy.2 n hn)⟩
    | landing g e => exact Fine.forward htidy hst.store
    | _ => trivial

theorem forward_of_same (hstore : t.store.Extends s.store) (hb : t.building = s.building)
    (hj : t.jobs = s.jobs) : Forward s t where
  store := hstore
  claimed := fun n f hf => Or.inl (by rw [hb]; exact hf)
  jobs := fun {k j} hk => ⟨j, by rw [hj]; exact hk, rfl⟩

theorem forward_setJob {k : Nat} {j : Job} (hj : s.jobs[k]? = some j) (stage : JobStage) :
    Forward s (s.setJob k stage) where
  store := .refl _
  claimed := fun n f hf => Or.inl hf
  jobs := by
    intro m j' hm
    rw [getElem?_setJob hj]
    by_cases hmk : m = k
    · rw [if_pos hmk]
      subst hmk
      obtain rfl := Option.some.inj (hj.symm.trans hm)
      exact ⟨_, rfl, rfl⟩
    · rw [if_neg hmk]
      exact ⟨j', hm, rfl⟩

theorem Forward.trans {u : State} (h₁ : Forward s t) (h₂ : Forward t u) : Forward s u where
  store := h₁.store.trans h₂.store
  claimed := by
    intro n f hf
    rcases h₁.claimed n f hf with hf | hn
    · exact h₂.claimed n f hf
    · exact Or.inr (h₂.store.contains hn)
  jobs := by
    intro k j hj
    obtain ⟨j', hj', hu⟩ := h₁.jobs hj
    obtain ⟨j'', hj'', hu'⟩ := h₂.jobs hj'
    exact ⟨j'', hj'', hu'.trans hu⟩

theorem BatchMove.kept (hm : BatchMove cfg s i a b t next) (hc : Clean payload s b)
    (hf : (n, f) ∈ s.building.claimed) :
    (n, f) ∈ t.building.claimed ∨ t.store.contains n = true := by
  cases hm with
  | lead => exact Or.inl (List.mem_append_left _ hf)
  | @release g ending =>
    by_cases hg : n ∈ g.names ∧ f = g.flight
    · exact Or.inr (hc.tidy.2 n hg.1)
    · exact Or.inl (mem_release.mpr ⟨hf, hg⟩)
  | land =>
    left
    rw [claimed_settle]
    exact hf
  | idle _ hq => exact Or.inl (by rw [hq.building]; exact hf)
  | fail _ _ _ hq => exact Or.inl (by rw [hq.building]; exact hf)
  | conflict _ hq => exact Or.inl (by rw [hq.building]; exact hf)
  | expireWait _ hq => exact Or.inl (by rw [hq.building]; exact hf)
  | expireBuild hq => exact Or.inl (by rw [hq.building]; exact hf)
  | _ => exact Or.inl hf

theorem BatchMove.forward (hm : BatchMove cfg s i a b t next) (hc : Clean payload s b) :
    Forward s t where
  store := hm.frame.extends
  claimed := fun _ _ hf => hm.kept hc hf
  jobs := by
    intro k j hj
    obtain ⟨more, hmore⟩ := hm.frame.jobs_append
    refine ⟨j, ?_, rfl⟩
    rw [hmore, List.getElem?_append_left (List.getElem?_eq_some_iff.mp hj).1]
    exact hj

theorem BatchFrame.agrees (h : BatchFrame s b t) (hs : Sound payload s) (hc : Clean payload s b) :
    t.store.Agrees payload := by
  rcases h.store with he | ⟨b', submitted, output, produced, rfl, hp⟩
  · rw [he]
    exact hs.agrees
  · exact Store.agrees_of_putAll hp hs.agrees hc.tidy.2

theorem Step.claimed (h : Step cfg s a t) (hf : (n, f) ∈ t.building.claimed) :
    (n, f) ∈ s.building.claimed ∨ s.store.contains n = false := by
  cases h with
  | move hc hm => exact hm.building.claimed hf
  | launch _ _ hq =>
    rw [setJob_building, hq.building] at hf
    exact Or.inl hf
  | quiet _ hq =>
    rw [hq.building] at hf
    exact Or.inl hf
  | _ => exact Or.inl hf

theorem CallMove.forward {st st' : Stage} (hs : Sound payload s) (hi : s.calls[i]? = some st)
    (hm : CallMove cfg s i a st t st') : Forward s t := by
  rcases hm.batch_or_apart with ⟨b, next, hb, hm, -⟩ | hap
  · exact hm.forward (hs.batches ((view_of_call hi).trans hb))
  · exact forward_of_same (by rw [hap.store]; exact .refl _) hap.building hap.jobs

theorem Step.forward (hs : Sound payload s) (h : Step cfg s a t) : Forward s t := by
  cases h with
  | call => exact forward_of_same (.refl _) rfl rfl
  | move hc hm => exact (hm.forward hs hc).trans (forward_of_same (.refl _) rfl rfl)
  | occupy hj => exact (forward_setJob hj .preparing).trans (forward_of_same (.refl _) rfl rfl)
  | @launch k j processors u hj hstage hq =>
    have hj' : u.jobs[k]? = some j := by
      rw [hq.jobs]
      exact hj
    exact (forward_of_same (by rw [hq.store]; exact .refl _) hq.building hq.jobs).trans
      (forward_setJob hj' _)
  | built reply hj =>
    exact (forward_setJob hj (.returned (.ended reply))).trans (forward_of_same (.refl _) rfl rfl)
  | founder hj =>
    exact (forward_setJob hj (.returned .unstarted)).trans (forward_of_same (.refl _) rfl rfl)
  | put hp => exact forward_of_same (Store.extends_of_put hp) rfl rfl
  | putAll hp => exact forward_of_same (Store.extends_of_putAll hp) rfl rfl
  | quiet _ hq => exact forward_of_same (by rw [hq.store]; exact .refl _) hq.building hq.jobs

theorem Step.agrees (hs : Sound payload s) (h : Step cfg s a t) (ha : Smooth payload s a) :
    t.store.Agrees payload := by
  cases h with
  | move hc hm =>
    rcases hm.batch_or_apart with ⟨b, next, hb, hm, -⟩ | hap
    · exact hm.frame.agrees hs (hs.batches ((view_of_call hc).trans hb))
    · rw [setCall_store, hap.store]
      exact hs.agrees
  | launch _ _ hq =>
    rw [setJob_store, hq.store]
    exact hs.agrees
  | put hp => exact Store.agrees_of_put hp hs.agrees ha
  | putAll hp => exact Store.agrees_of_putAll hp hs.agrees ha
  | quiet _ hq =>
    rw [hq.store]
    exact hs.agrees
  | _ => exact hs.agrees

theorem Step.returned (hs : Sound payload s) (h : Step cfg s a t) (ha : Smooth payload s a) {k : Nat}
    {j : Job} {r : JobEnd} (hj : t.jobs[k]? = some j) (hr : j.stage = .returned r) :
    ∃ o, r = .ended (.output o) ∧ Covers payload j.units o := by
  rcases h.job_returned hj hr with hj | ⟨hend, j', hj', hunits⟩
  · exact hs.jobs hj hr
  · cases r with
    | unstarted =>
      cases a with
      | founder => exact ha.elim
      | built => cases (Prod.mk.inj (Option.some.inj hend)).2
      | _ => cases hend
    | ended reply =>
      obtain rfl := Action.ending?_eq_ended.mp hend
      obtain ⟨o, rfl, hcovers⟩ := ha j' hj'
      exact ⟨o, rfl, hunits ▸ hcovers⟩

theorem submitted_setJob {k : Nat} {j : Job} {stage : JobStage} (hj : s.jobs[k]? = some j) :
    (s.setJob k stage).submitted = s.submitted := by
  have hflat : ∀ t : State, t.submitted = (t.jobs.map (·.units)).flatMap (·.map (·.name)) := by
    intro t
    rw [State.submitted, List.flatMap_map]
  rw [hflat, hflat, units_setJob hj]

theorem Step.submitted (h : Step cfg s a t) :
    t.submitted = s.submitted ∨ ∃ i b k deadline, s.view Stage.batch? i = some (.submitting b) ∧
      t.view Stage.batch? i = some (.building b (b.submission.map (·.name)) k deadline) ∧
      t.submitted = s.submitted ++ b.submission.map (·.name) := by
  have hsame : ∀ {u v : State}, v.jobs = u.jobs → v.submitted = u.submitted := by
    intro u v hj
    rw [State.submitted, State.submitted, hj]
  cases h with
  | @move id a st u st' hc hm =>
    -- only a batch that submits adds a job
    rcases hm.batch_or_apart with ⟨b, next, hb, hbm, hn⟩ | hap
    · rcases hbm.frame.jobs with hj | ⟨b, skipped, stage, rfl, -, hj⟩
      · exact Or.inl (hsame hj)
      · cases hbm with
        | idle _ hq => exact Or.inl (hsame hq.jobs)
        | submit =>
          refine Or.inr ⟨id, b, s.jobs.length, b.limits.compile.bind (Moment.after? s.now),
            (view_of_call hc).trans hb, ?_, ?_⟩
          · rw [hm.view hc, Function.update_self]
            exact hn
          · simp [State.submitted]
    · exact Or.inl (hsame hap.jobs)
  | occupy hj => exact Or.inl (submitted_setJob hj)
  | launch hj _ hq =>
    exact Or.inl ((submitted_setJob (by rw [hq.jobs]; exact hj)).trans (hsame hq.jobs))
  | built _ hj => exact Or.inl (submitted_setJob hj)
  | founder hj => exact Or.inl (submitted_setJob hj)
  | quiet _ hq => exact Or.inl (hsame hq.jobs)
  | _ => exact Or.inl rfl

theorem BatchMove.spent (hm : BatchMove cfg s i a b t next) (hb : b.Spent) (hn : Has b.guard? n f) :
    (∃ b', next.getLeft? = some b' ∧ b'.Spent ∧ Has b'.guard? n f) ∨
      ∃ g e, b = .releasing g e ∧ t.building = s.building.release g := by
  have hend : ∀ {c : Claims} {e : BatchEnd}, Has (some ⟨c.flight, c.led⟩) n f →
      ∃ b', (endBatch c e).getLeft? = some b' ∧ b'.Spent ∧ Has b'.guard? n f := by
    intro c e hn
    have hled : ¬ c.led.isEmpty = true := by
      rw [List.isEmpty_iff]
      exact List.ne_nil_of_mem (has_some.mp hn).2
    unfold endBatch Claims.guard?
    rw [if_neg hled]
    exact ⟨_, rfl, trivial, hn⟩
  cases hm with
  | receive => exact Or.inl ⟨_, rfl, trivial, hn⟩
  | fail => exact Or.inl (hend hn)
  | keep => exact Or.inl (hend hn)
  | conflict => exact Or.inl (hend hn)
  | expireBuild => exact Or.inl (hend hn)
  | release => exact Or.inr ⟨_, _, rfl, rfl⟩
  | _ => cases hb

theorem State.Accounted.step (hs : Sound payload s) (horder : Orderly s) (h : Step cfg s a t)
    (hn : s.Accounted n) : t.Accounted n := by
  have hstored : t.store.Extends s.store := (h.forward hs).store
  rcases hn with ⟨k, b, f, hb, hspent, hhas⟩ | ⟨hn, hfree⟩
  · rcases h.batch_before hb with hb' | ⟨u, next, st', hm, rfl, hb'⟩
    · exact Or.inl ⟨k, b, f, hb', hspent, hhas⟩
    · rcases hm.spent hspent hhas with ⟨b', hn', hspent', hhas'⟩ | ⟨g, e, rfl, hrelease⟩
      · exact Or.inl ⟨k, b', f, hb'.trans hn', hspent', hhas'⟩
      · -- the name leaves the table; nobody else has it there, under any flight
        obtain ⟨hgf, hng⟩ := has_some.mp hhas
        refine Or.inr ⟨hstored.contains ((hs.batches hb).tidy.2 n hng), fun f' hf' => ?_⟩
        rw [setCall_building, hrelease, mem_release] at hf'
        obtain ⟨hf', hkept⟩ := hf'
        obtain ⟨j, hj⟩ := horder.batches.claimed_iff.mp hf'
        have hk : Has (s.view Stage.batchGuard? k) n f := by
          rw [view_batchGuard? hb]
          exact hhas
        obtain rfl := horder.batches.once hj hk
        obtain ⟨γ, hγ, hγf, -⟩ := hj
        obtain rfl := Option.some.inj (hγ.symm.trans (view_batchGuard? hb))
        exact hkept ⟨hng, hγf.symm⟩
  · refine Or.inr ⟨hstored.contains hn, fun f hf => ?_⟩
    rcases h.claimed hf with hf | hnot
    · exact hfree f hf
    · rw [hn] at hnot
      cases hnot

theorem Sound.holds_submission (hs : Sound payload s) {b : Batch}
    (hb : s.view Stage.batch? i = some (.submitting b)) (hn : n ∈ b.submission.map (·.name)) :
    Has (some ⟨b.claims.flight, b.claims.led⟩) n b.claims.flight :=
  has_some.mpr ⟨rfl, (hs.batches hb).led _ rfl n (Batch.mem_submission.mp hn).2⟩

theorem Sound.submission_new (hs : Sound payload s) (horder : Orderly s) {b : Batch}
    (hb : s.view Stage.batch? i = some (.submitting b)) (hn : n ∈ b.submission.map (·.name)) :
    n ∉ s.submitted := by
  intro hsub
  have hi : Has (s.view Stage.batchGuard? i) n b.claims.flight := by
    rw [view_batchGuard? hb]
    exact hs.holds_submission hb hn
  rcases hs.accounted n hsub with ⟨k, b', f, hb', hspent, hhas⟩ | ⟨-, hfree⟩
  · have hk : Has (s.view Stage.batchGuard? k) n f := by
      rw [view_batchGuard? hb']
      exact hhas
    -- one batch holds the name, and it cannot both have submitted and be about to
    obtain rfl := horder.batches.once hi hk
    obtain rfl := Option.some.inj (hb.symm.trans hb')
    exact hspent
  · exact hfree _ (horder.batches.claimed_iff.mpr ⟨i, hi⟩)

/-! ## Smooth runs -/

section
variable {now : Moment} {store : Store} {ttl : Option Duration} {past : List (State × Action)}

theorem Run.answer (h : Run cfg (.fresh now store ttl) past s) (hs : Sound payload s)
    (hst : Step cfg s a t) (ha : Smooth payload s a) (hno : ¬ s.Overruns a) {e : BatchEnd}
    (hi : t.calls[i]? = some (.finished (.batch e))) : Fine t e := by
  rcases hst.call_after hi with hi | ⟨-, r, -, hr⟩ | ⟨st, u, hc, hm, rfl⟩
  · exact (hs.answers hi).forward hst.extends
  · cases r <;> cases hr
  · generalize hst' : Stage.finished (.batch e) = st' at hm
    cases hm with
    | @own _ b _ next hbm =>
      have hfair := h.fair hs (view_of_call hc) hbm ha hno
      rcases next with b' | e'
      · cases hst'
      · obtain rfl : e = e' := by simpa [afterOwnBatch] using hst'
        exact Fine.forward hfair (.refl _)
    | @compile _ _ _ _ _ next =>
      rcases next with b' | _ | _ | _ <;> cases hst'
    | _ => cases hst'

theorem Run.sound_step (h : Run cfg (.fresh now store ttl) past s) (hs : Sound payload s)
    (hact : s.act cfg a = some t) (ha : Smooth payload s a) (hno : ¬ s.Overruns a) :
    Sound payload t := by
  have hst := step_of_act hact
  have hforward := hst.forward hs
  refine ⟨hst.agrees hs ha, fun hj hr => hst.returned hs ha hj hr, fun {i b'} hb' => ?_,
    fun hi => h.answer hs hst ha hno hi, ?_, ?_⟩
  · rcases hst.batch_after hb' with hb | ⟨units, limits, rfl⟩ | ⟨b, u, next, st', hb, hm, hn, rfl⟩
    · exact (hs.batches hb).forward hforward
    · exact clean_entering
    · have hfair := h.fair hs hb hm ha hno
      rcases next with b'' | e
      · obtain rfl := Option.some.inj hn
        exact Clean.forward hfair (forward_of_same (.refl _) rfl rfl)
      · cases hn
  · rcases hst.submitted with he | ⟨i, b, k, deadline, hb, -, he⟩
    · rw [he]
      exact hs.once
    · rw [he, List.nodup_append]
      refine ⟨hs.once, b.nodup_submission, fun n hn m hm => ?_⟩
      rintro rfl
      exact hs.submission_new h.orderly hb hm hn
  · intro n hn
    -- submitted before, or by this move
    rcases hst.submitted with he | ⟨i, b, k, deadline, hb, hb', he⟩
    · rw [he] at hn
      exact (hs.accounted n hn).step hs h.orderly hst
    · rw [he] at hn
      rcases List.mem_append.mp hn with hn | hn
      · exact (hs.accounted n hn).step hs h.orderly hst
      · exact Or.inl ⟨i, _, _, hb', trivial, hs.holds_submission hb hn⟩

theorem sound_fresh : Sound payload (.fresh now .empty ttl) where
  agrees := Store.agrees_empty
  jobs := fun hj => (by cases hj)
  batches := fun hb => (by rw [view_fresh] at hb; cases hb)
  answers := fun hi => (by cases hi)
  once := List.nodup_nil
  accounted := fun n hn => (by cases hn)

theorem Run.sound (h : Run cfg (.fresh now .empty ttl) past s)
    (hs : ∀ p ∈ past, Smooth payload p.1 p.2) (hno : ∀ p ∈ past, ¬ p.1.Overruns p.2) :
    Sound payload s := by
  induction h with
  | start => exact sound_fresh
  | @step past s a t hr ha ih =>
    have hs' : ∀ p ∈ past, Smooth payload p.1 p.2 := fun p hp => hs p (List.mem_append_left _ hp)
    have hno' : ∀ p ∈ past, ¬ p.1.Overruns p.2 := fun p hp => hno p (List.mem_append_left _ hp)
    exact hr.sound_step (ih hs' hno') ha (hs (s, a) (by simp)) (hno (s, a) (by simp))

end

end

end OnDemand.Engine
