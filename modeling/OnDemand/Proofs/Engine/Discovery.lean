import OnDemand.Proofs.Engine.Completion
import OnDemand.Proofs.Engine.Launch

/-!
# The processors that a compiler run is offered

A run is offered the built-in processors and the stored artifacts that are processors. The store
keeps the first artifact of a name, so of an artifact that comes later under the same name with the
same payload it keeps no capability (`offered_kept`).
-/

namespace OnDemand

theorem Processors.mem_available {builtin : ProcessorSet} {s : Store} {x : String} :
    x ∈ available builtin s.artifacts ↔
      x ∈ builtin ∨ ∃ n a, s.get? n = some a ∧ a.isProcessor = true ∧ n.text = x := by
  unfold available
  rw [TextSet.mem_insertAll]
  simp only [List.mem_map, List.mem_filter]
  constructor
  · rintro (h | ⟨a, ⟨ha, hp⟩, rfl⟩)
    · exact Or.inl h
    · exact Or.inr ⟨a.name, a, Store.mem_artifacts.mp ha, hp, rfl⟩
  · rintro (h | ⟨n, a, ha, hp, rfl⟩)
    · exact Or.inl h
    · obtain rfl := Store.name_of_get? ha
      exact Or.inr ⟨a, ⟨Store.mem_artifacts.mpr ha, hp⟩, rfl⟩

theorem Processors.available_mono {builtin : ProcessorSet} {s t : Store} (h : t.Extends s)
    {x : String} (hx : x ∈ available builtin s.artifacts) : x ∈ available builtin t.artifacts := by
  rw [mem_available] at *
  rcases hx with hx | ⟨n, a, ha, hp⟩
  · exact Or.inl hx
  · exact Or.inr ⟨n, a, h n a ha, hp⟩

theorem Processors.mem_available_of_get? {builtin : ProcessorSet} {s : Store} {n : Name}
    {a : Artifact} (h : s.get? n = some a) :
    n.text ∈ available builtin s.artifacts ↔ n.text ∈ builtin ∨ a.isProcessor = true := by
  rw [mem_available]
  constructor
  · rintro (hb | ⟨m, b, hm, hp, ht⟩)
    · exact Or.inl hb
    · obtain rfl := Name.eq_of_text_eq ht
      obtain rfl := Option.some.inj (h.symm.trans hm)
      exact Or.inr hp
  · rintro (hb | hp)
    · exact Or.inl hb
    · exact Or.inr ⟨n, a, h, hp, rfl⟩

namespace Engine

open State

section
variable {cfg : Settings} {now : Moment} {store : Store} {ttl : Option Duration}
  {past after : List (State × Action)} {s t u : State} {a : Action} {i k : Nat} {l : Launch}

theorem mem_launches : l ∈ launches cfg past ↔ ∃ p ∈ past, p.1.launch? cfg p.2 = some l :=
  List.mem_filterMap

theorem Run.launch_processors (h : Run cfg u past s) (hl : l ∈ launches cfg past) :
    ∃ v : State, s.store.Extends v.store ∧ v.store.Extends u.store ∧
      l.processors = Processors.available cfg.builtin v.store.artifacts := by
  obtain ⟨⟨v, a⟩, hp, hlaunch⟩ := mem_launches.mp hl
  obtain ⟨-, j, -, -, -, hprocessors⟩ := launch?_eq_some.mp hlaunch
  obtain ⟨before, later, w, -, hbefore, -, -⟩ := h.split hp
  exact ⟨v, h.extends (mem_visited.mpr (Or.inr ⟨a, hp⟩)), hbefore.extends hbefore.start_visited,
    hprocessors⟩

theorem Run.launches_grow (h : Run cfg u past s) :
    (launches cfg past).Pairwise fun l l' => ∀ x ∈ l.processors, x ∈ l'.processors := by
  induction h with
  | start => exact List.Pairwise.nil
  | @step past s a t h ha ih =>
    rw [launches_step]
    refine List.pairwise_append.mpr ⟨ih, ?_, ?_⟩
    · cases s.launch? cfg a with
      | none => exact List.Pairwise.nil
      | some l => exact List.pairwise_singleton _ _
    · intro l hl l' hl' x hx
      obtain ⟨v, hv, -, hprocessors⟩ := h.launch_processors hl
      obtain ⟨-, j, -, -, -, hprocessors'⟩ := launch?_eq_some.mp (Option.mem_toList.mp hl')
      rw [hprocessors] at hx
      rw [hprocessors']
      exact Processors.available_mono hv hx

/-- A call that has returned a report stored what the compiler had made for it, and it had made one
thing only. -/
theorem Run.stored_output {r : Report} {names : List Name} {o : BuildOutput}
    (h : Run cfg (.fresh now store ttl) past s) (hr : Returned cfg past i (.reported r))
    (hm : Made past i names o) :
    ∃ v b submitted, (v, .advance i) ∈ past ∧
      v.view Stage.batch? i = some (.storing b submitted o) ∧
      ∀ n, ((v.store.get? n).or (o.artifacts.find? (·.name = n))).isSome →
        s.store.get? n = (v.store.get? n).or (o.artifacts.find? (·.name = n)) := by
  obtain ⟨before, v, bs, t, after, rfl, hbefore, hact, hafter, hview, hreports, -, hhanded⟩ :=
    h.reported hr
  obtain ⟨b', k', w, hb', -, hw⟩ := hm
  have hk' : k' ∈ handovers before i := by
    rw [← hhanded]
    exact mem_handovers.mpr ⟨b', hb'⟩
  have hhiring := hbefore.hiring_of_view hview
  generalize hfinal : t.store = final at hreports
  cases hreports with
  | idle =>
    rw [show handovers before i = [] from hhiring] at hk'
    cases hk'
  | @kept b submitted o₁ produced _ hput =>
    obtain ⟨k, j, hired, hreturned⟩ := hhiring
    rw [hired.only] at hk'
    obtain rfl := List.mem_singleton.mp hk'
    -- what a job has returned it keeps, so both outputs are the same
    have ho : o₁ = o := by
      obtain ⟨j₁, hj₁, -, hstage₁⟩ := ((Run.single hact).append hafter).job_kept hired.job
      obtain ⟨_, later, x, -, -, hbuilt, hlater⟩ := h.split hw
      have hx : ∃ j₀, x.jobs[k']? = some j₀ ∧ j₀.stage = .returned (.ended (.output o)) := by
        cases step_of_act hbuilt with
        | move _ hcm => cases hcm.mover
        | built _ hj _ =>
          refine ⟨_, (getElem?_setJob (by exact hj)).trans (if_pos rfl), rfl⟩
        | quiet hin => cases hin
      obtain ⟨j₀, hj₀, hs₀⟩ := hx
      obtain ⟨j₂, hj₂, -, hstage₂⟩ := hlater.job_kept hj₀
      obtain rfl := Option.some.inj (hj₁.symm.trans hj₂)
      have := (hstage₁ _ hreturned).symm.trans (hstage₂ _ hs₀)
      exact BuildReply.output.inj (JobEnd.ended.inj (JobStage.returned.inj this))
    subst ho
    refine ⟨v, b, submitted, by simp, hview, ?_⟩
    intro n hn
    obtain ⟨x, hx⟩ := Option.isSome_iff_exists.mp hn
    rw [hx]
    rw [← hfinal] at hput
    have hget := Store.get?_of_putAll hput n
    rw [hx] at hget
    exact hafter.extends hafter.start_visited n x hget

/-- Each run of the compiler is offered the built-in processors and all that an earlier run was
offered. Of what a call stored that has returned a report, a later run is offered, besides built-in
names, exactly the names under which the store keeps a processor: the artifact that was stored under
the name before, or else the first of that name in the output of the call. -/
theorem offered_kept (h : Run cfg (.fresh now store ttl) past s) :
    (launches cfg past).Pairwise (fun l l' => ∀ x ∈ l.processors, x ∈ l'.processors) ∧
    (∀ l ∈ launches cfg past, ∀ x ∈ cfg.builtin, x ∈ l.processors) ∧
    ∀ i r names o, Returned cfg past i (.reported r) → Made past i names o →
      ∃ v b submitted, (v, .advance i) ∈ past ∧
        v.view Stage.batch? i = some (.storing b submitted o) ∧
        ∀ after t, Run cfg s after t → ∀ l ∈ launches cfg after, ∀ a ∈ o.artifacts,
          ∃ kept, (v.store.get? a.name).or (o.artifacts.find? (·.name = a.name)) = some kept ∧
            (a.name.text ∈ l.processors ↔
              a.name.text ∈ cfg.builtin ∨ kept.isProcessor = true) := by
  refine ⟨h.launches_grow, ?_, ?_⟩
  · intro l hl x hx
    obtain ⟨v, -, -, hprocessors⟩ := h.launch_processors hl
    rw [hprocessors, Processors.mem_available]
    exact Or.inl hx
  · intro i r names o hr hm
    obtain ⟨v, b, submitted, hv, hview, hkept⟩ := h.stored_output hr hm
    refine ⟨v, b, submitted, hv, hview, ?_⟩
    intro after t hafter l hl x hx
    -- each name of the output is stored, now or from before
    have hsome : ((v.store.get? x.name).or
        (o.artifacts.find? (·.name = x.name))).isSome := by
      rw [Option.isSome_or, Bool.or_eq_true]
      refine Or.inr ?_
      rw [List.find?_isSome]
      exact ⟨x, hx, by simp⟩
    have hstored := hkept x.name hsome
    obtain ⟨kept, hk⟩ := Option.isSome_iff_exists.mp hsome
    rw [hk] at hstored
    -- a later launch reads a store that still has it
    obtain ⟨w, -, hw, hprocessors⟩ := hafter.launch_processors hl
    refine ⟨kept, hk, ?_⟩
    rw [hprocessors]
    exact Processors.mem_available_of_get? (hw _ _ hstored)

end

/-! ## A capability that the store does not keep -/

def Stage.ended : Stage → Bool
  | finished _ => true
  | _ => false

theorem State.settled_of_all {s : State} (h : s.calls.all Stage.ended) : s.Settled := by
  intro i st hi
  have hst := List.all_eq_true.mp h st (List.mem_of_getElem? hi)
  cases st with
  | finished answer => exact ⟨answer, rfl⟩
  | _ => cases hst

def Action.isCall : Action → Bool
  | call _ => true
  | _ => false

def compiling (i : Nat) (n : Name) (as : List Artifact) : List Action :=
  List.flatten
    [[.call (.compile [Sample.unit n] .unbounded)], List.replicate 4 (.advance i),
      [.prepare i, .built i (.output ⟨as, []⟩)], List.replicate 4 (.advance i)]

def enriched : BuildOutput :=
  ⟨[.plain Sample.y .empty,
    (Artifact.plain Sample.x .empty).withCapability .extensionProcessor], []⟩

def enriching : Batch where
  units := [Sample.unit Sample.y]
  limits := .unbounded
  claims := ⟨1, [], [], [Sample.y]⟩
  pending := [Sample.y]
  joined := []

/-- One after the other, `x` is compiled, then `y`, with `x` as a processor besides, and a third
name. -/
theorem exists_enriched :
    ∃ past s after t, Run Sample.settings (.fresh 0 .empty none) past s ∧
      Run Sample.settings s after t ∧
      (∀ p ∈ past ++ after, ∀ q, p.2 = .call q → p.1.Settled) ∧
      (∃ r, Returned Sample.settings past 1 (.reported r)) ∧
      Made past 1 [Sample.y] enriched ∧
      ∃ l ∈ launches Sample.settings after, "x" ∉ l.processors := by
  -- both runs are performed, and what can be seen of them is decided
  have hperform : ((State.fresh 0 .empty none).perform Sample.settings
      (compiling 0 Sample.x [.plain Sample.x .empty] ++
        compiling 1 Sample.y enriched.artifacts)).any fun r =>
      (∀ p ∈ r.1, p.2.isCall → p.1.calls.all Stage.ended) ∧
      r.2.calls[1]? = some (.finished (.batch (.reported
        ⟨[Sample.y], [], [], [Sample.y], [Sample.y]⟩))) ∧
      (∃ p ∈ r.1, p.2 = .advance 1 ∧ p.1.view Stage.batch? 1 = some (.submitting enriching) ∧
        p.1.jobs.length = 1) ∧
      (∃ p ∈ r.1, p.2 = .built 1 (.output enriched)) ∧
      (r.2.perform Sample.settings (compiling 2 ⟨"z", by decide +kernel⟩ [])).any fun r' =>
        (∀ p ∈ r'.1, p.2.isCall → p.1.calls.all Stage.ended) ∧
        ∃ l ∈ launches Sample.settings r'.1, "x" ∉ l.processors := by
    decide +kernel
  obtain ⟨past, s, hrun, hcalls, hreport, ⟨⟨v, a⟩, hv, rfl, hview, hlen⟩, ⟨⟨w, b⟩, hw, rfl⟩,
    hagain⟩ := Run.of_any hperform
  obtain ⟨after, t, hafter, hcalls', hlaunch⟩ := Run.of_any hagain
  refine ⟨past, s, after, t, hrun, hafter, ?_, ⟨_, hrun.returned_of_answer hreport⟩,
    ⟨enriching, 1, w, ⟨by decide, v, hv, hview, hlen⟩, by decide, hw⟩, hlaunch⟩
  intro p hp q hq
  have hcall : p.2.isCall := by rw [hq]; rfl
  rcases List.mem_append.mp hp with hp | hp
  · exact State.settled_of_all (hcalls p hp hcall)
  · exact State.settled_of_all (hcalls' p hp hcall)

/-- The third run of the compiler is not offered `x`: the artifact that the store keeps under it is
no processor. -/
theorem offered_kept_enriched :
    ∃ past s after t, Run Sample.settings (.fresh 0 .empty none) past s ∧
      Run Sample.settings s after t ∧
      (∃ r, Returned Sample.settings past 1 (.reported r)) ∧ Made past 1 [Sample.y] enriched ∧
      ∃ v kept, (v, .advance 1) ∈ past ∧
        (v.store.get? Sample.x).or (enriched.artifacts.find? (·.name = Sample.x)) = some kept ∧
        kept.isProcessor = false := by
  obtain ⟨past, s, after, t, hrun, hafter, -, ⟨r, hr⟩, hmade, l, hl, hx⟩ := exists_enriched
  obtain ⟨-, -, hoffered⟩ := offered_kept hrun
  obtain ⟨v, b, submitted, hv, -, hlater⟩ := hoffered 1 r _ _ hr hmade
  obtain ⟨kept, hk, hiff⟩ := hlater after t hafter l hl
    ((Artifact.plain Sample.x .empty).withCapability .extensionProcessor) (by decide)
  refine ⟨past, s, after, t, hrun, hafter, ⟨r, hr⟩, hmade, v, kept, hv, hk, ?_⟩
  by_contra hp
  exact hx (hiff.mpr (Or.inr (by simpa using hp)))

/-- Calls are made one after the other, and one that has returned a report has had a processor in its
output that a later run of the compiler is not offered. -/
theorem processor_not_offered :
    ∃ past s after t i names o x l, Run Sample.settings (.fresh 0 .empty none) past s ∧
      Run Sample.settings s after t ∧
      (∀ p ∈ past ++ after, ∀ q, p.2 = .call q → p.1.Settled) ∧
      (∃ r, Returned Sample.settings past i (.reported r)) ∧ Made past i names o ∧
      x ∈ o.artifacts ∧ x.isProcessor = true ∧
      l ∈ launches Sample.settings after ∧ x.name.text ∉ l.processors := by
  obtain ⟨past, s, after, t, hrun, hafter, hcalls, hr, hmade, l, hl, hx⟩ := exists_enriched
  exact ⟨past, s, after, t, 1, _, _,
    (Artifact.plain Sample.x .empty).withCapability .extensionProcessor, l, hrun, hafter, hcalls,
    hr, hmade, by decide, rfl, hl, hx⟩

end Engine

end OnDemand
