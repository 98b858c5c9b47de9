import OnDemand.Proofs.Engine.Ledger

/-!
# What a batch hands to the compiler

A batch submits each of its names that the store lacked when the batch asked about it. A name that
was stored in between is submitted all the same: no stored name is submitted exactly when the store
still says what it said at each look (`submission_fresh_iff`).
-/

namespace OnDemand.Engine

open State

namespace Batch

variable {n : Name}

theorem mem_firsts : ∀ {us : List SourceUnit} {seen : List Name},
    n ∈ (submission.firsts seen us).map (·.name) ↔ n ∈ us.map (·.name) ∧ n ∉ seen
  | [], seen => by simp [submission.firsts]
  | u :: us, seen => by
    rw [submission.firsts]
    split
    · rename_i hu
      rw [mem_firsts, List.map_cons, List.mem_cons]
      constructor
      · rintro ⟨hn, hseen⟩
        exact ⟨Or.inr hn, hseen⟩
      · rintro ⟨rfl | hn, hseen⟩
        · exact absurd hu hseen
        · exact ⟨hn, hseen⟩
    · rename_i hu
      rw [List.map_cons, List.mem_cons, mem_firsts, List.map_cons, List.mem_cons, List.mem_cons]
      by_cases hn : n = u.name
      · simp [hn, hu]
      · simp [hn]

theorem nodup_firsts : ∀ {us : List SourceUnit} {seen : List Name},
    ((submission.firsts seen us).map (·.name)).Nodup
  | [], seen => List.nodup_nil
  | u :: us, seen => by
    rw [submission.firsts]
    split
    · exact nodup_firsts
    · rw [List.map_cons, List.nodup_cons, mem_firsts]
      exact ⟨by simp, nodup_firsts⟩

theorem mem_submission {b : Batch} :
    n ∈ b.submission.map (·.name) ↔ n ∈ b.requested ∧ n ∈ b.pending := by
  rw [submission, mem_firsts, requested]
  simp only [List.mem_map, List.mem_filter, decide_eq_true_eq, List.not_mem_nil, not_false_eq_true,
    and_true]
  constructor
  · rintro ⟨u, ⟨hu, hp⟩, rfl⟩
    exact ⟨⟨u, hu, rfl⟩, hp⟩
  · rintro ⟨⟨u, hu, rfl⟩, hp⟩
    exact ⟨u, ⟨hu, hp⟩, rfl⟩

theorem nodup_submission (b : Batch) : (b.submission.map (·.name)).Nodup :=
  nodup_firsts

end Batch

section
variable {cfg : Settings} {s : State} {now : Moment} {store : Store} {ttl : Option Duration}
  {past : List (State × Action)} {i : Nat} {n : Name}

theorem State.ledger?_of_batch {b : BatchStage} (h : s.view Stage.batch? i = some b) :
    s.ledger? i = b.ledger? := by
  obtain ⟨st, hi, hb⟩ := view_eq_some.mp h
  rw [State.ledger?, hi]
  exact Stage.ledger?_of_batch hb

theorem Run.mem_submission_iff {b : Batch} (h : Run cfg (.fresh now store ttl) past s)
    (hi : s.view Stage.batch? i = some (.submitting b)) :
    n ∈ b.submission.map (·.name) ↔ ∃ w, Looked past i ⟨n, w, false⟩ := by
  have hr := h.recorded (State.ledger?_of_batch hi)
  rw [Batch.mem_submission, ← hr.lacking n]
  exact ⟨And.right, fun hp => ⟨hr.mem_requested.mpr (Or.inr (Or.inl hp)), hp⟩⟩

/-- A batch about to submit has asked the store about each requested name, and submits a name
exactly if the store lacked it then. So it submits no stored name exactly if the store still says
of each name what it said when the batch asked. -/
theorem submission_fresh_iff {b : Batch} (h : Run cfg (.fresh now store ttl) past s)
    (hi : s.view Stage.batch? i = some (.submitting b)) :
    (∀ n ∈ b.requested, ∃ l, Looked past i l ∧ l.name = n ∧
      (n ∈ b.submission.map (·.name) ↔ l.stored = false)) ∧
    ((∀ n ∈ b.submission.map (·.name), s.store.contains n = false) ↔
      ∀ l, Looked past i l → s.store.contains l.name = l.stored) := by
  have hr := h.recorded (State.ledger?_of_batch hi)
  constructor
  · intro n hn
    rcases hr.mem_requested.mp hn with hf | hl | hw
    · obtain ⟨w, hlook⟩ := (hr.found n).mp hf
      refine ⟨_, hlook, rfl, ?_⟩
      rw [Batch.mem_submission]
      simp [hr.disjoint.1 hf]
    · obtain ⟨w, hlook⟩ := (hr.lacking n).mp hl
      refine ⟨_, hlook, rfl, ?_⟩
      rw [Batch.mem_submission]
      simp [hn, show n ∈ b.pending from hl]
    · cases hw
  · constructor
    -- what was found stored still is, so only the names found lacking matter
    · rintro hfree ⟨n, w, stored⟩ hlook
      cases stored with
      | true =>
        obtain ⟨u, hu, hstored⟩ := hlook.visited (s := s)
        exact (h.extends hu).contains hstored
      | false => exact hfree n ((h.mem_submission_iff hi).mpr ⟨w, hlook⟩)
    · intro hsame n hn
      obtain ⟨w, hlook⟩ := (h.mem_submission_iff hi).mp hn
      exact hsame _ hlook

end

/-! ## A name stored while a batch waits -/

/-- The first batch compiles `x`, and its output has `y` as well. The second, of `x` and `y`, waits
for the first and has a claim on `y`. -/
def overtaking : List Action :=
  List.flatten
    [[.call (.compile [Sample.unit Sample.x] .unbounded),
        .call (.compile [Sample.unit Sample.x, Sample.unit Sample.y] .unbounded)],
      List.replicate 4 (.advance 0), List.replicate 4 (.advance 1),
      [.prepare 0, .built 0 (.output ⟨[.plain Sample.x .empty, .plain Sample.y .empty], []⟩)],
      List.replicate 4 (.advance 0), List.replicate 2 (.advance 1)]

/-- The second batch before it submits: `x` is joined, `y` is pending. -/
def overtaken : Batch where
  units := [Sample.unit Sample.x, Sample.unit Sample.y]
  limits := .unbounded
  claims := ⟨1, [], [(Sample.x, 0)], [Sample.y]⟩
  pending := [Sample.y]
  joined := [Sample.x]

theorem submission_fresh_iff_overtaken :
    ∃ past s, Run Sample.settings (.fresh 0 .empty none) past s ∧
      s.view Stage.batch? 1 = some (.submitting overtaken) ∧
      (∃ l, Looked past 1 l ∧ l.name = Sample.y ∧ l.stored = false) ∧
      ((∀ n ∈ overtaken.submission.map (·.name), s.store.contains n = false) ↔
        ∀ l, Looked past 1 l → s.store.contains l.name = l.stored) := by
  have hperform : ((State.fresh 0 .empty none).perform Sample.settings overtaking).any fun r =>
      r.2.view Stage.batch? 1 = some (.submitting overtaken) := by
    decide +kernel
  obtain ⟨past, s, hrun, hview⟩ := Run.of_any hperform
  obtain ⟨hlooks, hiff⟩ := submission_fresh_iff hrun hview
  obtain ⟨l, hlook, hname, hstored⟩ := hlooks Sample.y (by decide +kernel)
  exact ⟨past, s, hrun, hview, ⟨l, hlook, hname, hstored.mp (by decide +kernel)⟩, hiff⟩

/-- The second batch hands `y` to the compiler although it is stored. -/
theorem stored_name_submitted :
    ∃ past s, Run Sample.settings (.fresh 0 .empty none) past s ∧
      s.view Stage.batch? 1 = some (.submitting overtaken) ∧
      Sample.y ∈ overtaken.submission.map (·.name) ∧ s.store.contains Sample.y = true := by
  have hperform : ((State.fresh 0 .empty none).perform Sample.settings overtaking).any fun r =>
      r.2.view Stage.batch? 1 = some (.submitting overtaken) ∧
        Sample.y ∈ overtaken.submission.map (·.name) ∧ r.2.store.contains Sample.y = true := by
    decide +kernel
  exact Run.of_any hperform

end OnDemand.Engine
