import OnDemand.Proofs.Engine.Launch
import OnDemand.Proofs.Engine.Submission

/-!
# What a report says

A report splits the names of its batch into those that were stored, those that another batch stored
in the meantime and those handed to the compiler. Each part comes in the order of the batch, and the
compiler has been started on the first unit of each name of the third (`report_partitions`).
-/

namespace OnDemand

namespace Name

theorem idxOf_cons_of_ne {n m : Name} (h : n ≠ m) (l : List Name) :
    (n :: l).idxOf m = l.idxOf m + 1 := by
  rw [List.idxOf_cons, beq_eq_false_iff_ne.mpr h]
  rfl

theorem pairwise_distinct : ∀ l : List Name,
    (distinct l).Pairwise fun a b => l.idxOf a < l.idxOf b
  | [] => List.Pairwise.nil
  | n :: ns => by
    have hne : ∀ m ∈ (distinct ns).filter (· ≠ n), n ≠ m := by
      intro m hm h
      simp [h] at hm
    rw [distinct, List.pairwise_cons]
    constructor
    · intro b hb
      rw [List.idxOf_cons_self, idxOf_cons_of_ne (hne b hb)]
      exact Nat.succ_pos _
    · refine ((pairwise_distinct ns).filter _).imp_of_mem ?_
      intro a b ha hb hab
      rw [idxOf_cons_of_ne (hne a ha), idxOf_cons_of_ne (hne b hb)]
      exact Nat.succ_lt_succ hab

end Name

namespace Engine

open State

/-! ## The order of a submission -/

namespace Batch

theorem names_firsts (p : Name → Bool) : ∀ (us : List SourceUnit) (seen : List Name),
    (submission.firsts seen (us.filter fun u => p u.name)).map (·.name) =
      (Name.distinct (us.map (·.name))).filter fun n => p n && n ∉ seen
  | [], seen => rfl
  | u :: us, seen => by
    rw [List.map_cons, Name.distinct]
    -- the head is refused, has a name seen before, or is the first of its name
    by_cases hp : p u.name
    · rw [List.filter_cons_of_pos (p := fun u : SourceUnit => p u.name) hp, submission.firsts]
      by_cases hs : u.name ∈ seen
      · rw [if_pos hs, names_firsts p us seen, List.filter_cons_of_neg (by simp [hs]),
          List.filter_filter]
        apply List.filter_congr
        intro n _
        by_cases hn : n = u.name
        · subst hn; simp [hs]
        · simp [hn]
      · rw [if_neg hs, List.map_cons, names_firsts p us (u.name :: seen),
          List.filter_cons_of_pos (by simp [hp, hs]), List.filter_filter]
        congr 1
        apply List.filter_congr
        intro n _
        by_cases hn : n = u.name
        · subst hn; simp
        · simp [hn]
    · rw [List.filter_cons_of_neg (p := fun u : SourceUnit => p u.name) hp, names_firsts p us seen,
        List.filter_cons_of_neg (by simp [hp]), List.filter_filter]
      apply List.filter_congr
      intro n _
      by_cases hn : n = u.name
      · subst hn; simp [hp]
      · simp [hn]

theorem submission_sublist (b : Batch) :
    (b.submission.map (·.name)).Sublist (Name.distinct b.requested) := by
  have h := names_firsts (fun n => n ∈ b.pending) b.units []
  simp only [submission, requested, h]
  exact List.filter_sublist

theorem find?_firsts (p : Name → Bool) : ∀ (us : List SourceUnit) (seen : List Name)
    (v : SourceUnit), v ∈ submission.firsts seen (us.filter fun u => p u.name) →
      us.find? (·.name = v.name) = some v
  | [], seen, v, hv => by cases hv
  | u :: us, seen, v, hv => by
    have hname := mem_firsts.mp (List.mem_map_of_mem (f := (·.name)) hv)
    by_cases hp : p u.name
    · rw [List.filter_cons_of_pos (p := fun u : SourceUnit => p u.name) hp, submission.firsts] at hv
      by_cases hs : u.name ∈ seen
      · rw [if_pos hs] at hv
        have hne : u.name ≠ v.name := fun h => hname.2 (h ▸ hs)
        rw [List.find?_cons_of_neg (by simpa using hne)]
        exact find?_firsts p us seen v hv
      · rw [if_neg hs] at hv
        rcases List.mem_cons.mp hv with rfl | hv
        · simp
        -- a later unit has another name than the head, which is seen by then
        · have hlater := mem_firsts.mp (List.mem_map_of_mem (f := (·.name)) hv)
          have hne : u.name ≠ v.name := fun h => hlater.2 (by simp [h])
          rw [List.find?_cons_of_neg (by simpa using hne)]
          exact find?_firsts p us _ v hv
    · rw [List.filter_cons_of_neg (p := fun u : SourceUnit => p u.name) hp] at hv
      have hne : u.name ≠ v.name := by
        intro h
        obtain ⟨hin, -⟩ := mem_firsts.mp (List.mem_map_of_mem (f := (·.name)) hv)
        obtain ⟨w, hw, hwv⟩ := List.mem_map.mp hin
        have := (List.mem_filter.mp hw).2
        rw [hwv, ← h] at this
        exact hp this
      rw [List.find?_cons_of_neg (by simpa using hne)]
      exact find?_firsts p us seen v hv

theorem find?_submission {b : Batch} {u : SourceUnit} (h : u ∈ b.submission) :
    b.units.find? (·.name = u.name) = some u :=
  find?_firsts (fun n => n ∈ b.pending) b.units [] u h

end Batch

section
variable {cfg : Settings} {now : Moment} {store : Store} {ttl : Option Duration}
  {past : List (State × Action)} {s t u : State} {a : Action} {i : Nat} {units : List SourceUnit}

/-! ## The order of the other parts -/

/-- A batch of `units` whose lists are in its order, with the names that it still waits for. -/
structure Batch.Sorted (us : List SourceUnit) (b : Batch) (rest : List Name) : Prop where
  units : b.units = us
  done : b.claims.done.Sublist (Name.distinct (us.map (·.name)))
  joined : (b.joined ++ rest).Sublist (Name.distinct (us.map (·.name)))

def BatchStage.Sorted (units : List SourceUnit) : BatchStage → Prop
  | entering us _ => us = units
  | claiming us _ rest c => us = units ∧
      (c.done ++ rest).Sublist (Name.distinct (units.map (·.name))) ∧
      (c.followed.map (·.1) ++ rest).Sublist (Name.distinct (units.map (·.name)))
  | following b rest _ => b.Sorted units (rest.map (·.1))
  | checking b n rest => b.Sorted units (n :: rest.map (·.1))
  | submitting b => b.Sorted units []
  | building b _ _ _ => b.Sorted units []
  | storing b _ _ => b.Sorted units []
  | releasing _ _ => True
  | landing _ _ => True

theorem sorted_endBatch {c : Claims} {e : BatchEnd} {b : BatchStage}
    (hn : (endBatch c e).getLeft? = some b) : b.Sorted units := by
  rw [endBatch_stage hn]
  trivial

theorem Onward.sorted {b : Batch} {rest : List (Name × Nat)} {next : BatchStage ⊕ BatchEnd}
    {b' : BatchStage} (h : Onward now b rest next) (hb : b.Sorted units (rest.map (·.1)))
    (hn : next.getLeft? = some b') : b'.Sorted units := by
  rcases h.stage hn with ⟨rfl, rfl⟩ | ⟨_, rfl⟩ | rfl
  · exact hb
  · exact hb
  · trivial

theorem BatchMove.sorted {b b' : BatchStage} {next : BatchStage ⊕ BatchEnd}
    (hm : BatchMove cfg s i a b u next) (h : b.Sorted units) (hn : next.getLeft? = some b') :
    b'.Sorted units := by
  -- a claim moves the next name into one of two lists and keeps the order
  cases hm with
  | enter =>
    obtain rfl := Option.some.inj hn
    obtain rfl := h
    exact ⟨rfl, List.Sublist.refl _, List.Sublist.refl _⟩
  | follow =>
    obtain rfl := Option.some.inj hn
    obtain ⟨hunits, hdone, hfollowed⟩ := h
    refine ⟨hunits, (List.sublist_cons_self _ _).append_left _ |>.trans hdone, ?_⟩
    rw [List.map_append, List.append_assoc]
    exact hfollowed
  | skip =>
    obtain rfl := Option.some.inj hn
    obtain ⟨hunits, hdone, hfollowed⟩ := h
    refine ⟨hunits, ?_, (List.sublist_cons_self _ _).append_left _ |>.trans hfollowed⟩
    rw [List.append_assoc]
    exact hdone
  | lead =>
    obtain rfl := Option.some.inj hn
    obtain ⟨hunits, hdone, hfollowed⟩ := h
    exact ⟨hunits, (List.sublist_cons_self _ _).append_left _ |>.trans hdone,
      (List.sublist_cons_self _ _).append_left _ |>.trans hfollowed⟩
  | claimed ho =>
    obtain ⟨hunits, hdone, hfollowed⟩ := h
    rw [List.append_nil] at hdone hfollowed
    exact ho.sorted ⟨hunits, hdone, hfollowed⟩ hn
  | join _ ho =>
    refine ho.sorted ⟨h.units, h.done, ?_⟩ hn
    rw [List.append_assoc]
    exact h.joined
  | takeOver _ ho =>
    exact ho.sorted ⟨h.units, h.done,
      ((List.sublist_cons_self _ _).append_left _).trans h.joined⟩ hn
  | idle | fail | keep | conflict | expireWait | expireBuild => exact sorted_endBatch hn
  | land => cases hn
  | release =>
    obtain rfl := Option.some.inj hn
    trivial
  | _ =>
    obtain rfl := Option.some.inj hn
    exact h

/-! ## The units of a call -/

/-- Call `i` compiles `units`: they are what it was asked to compile, or the one unit that the
repository gave to it. -/
def Batched (past : List (State × Action)) (i : Nat) (units : List SourceUnit) : Prop :=
  (∃ limits, Called past i (.compile units limits)) ∨
    ∃ v x, (v, .fetched i (.unit x)) ∈ past ∧ units = [x]

theorem batched_step : Batched (past ++ [(s, a)]) i units ↔ Batched past i units ∨
    (∃ limits, a = .call (.compile units limits) ∧ s.calls.length = i) ∨
    ∃ x, a = .fetched i (.unit x) ∧ units = [x] := by
  constructor
  · rintro (⟨limits, h⟩ | ⟨v, x, hv, rfl⟩)
    · rcases called_step.mp h with h | ⟨ha, hi⟩
      · exact Or.inl (Or.inl ⟨limits, h⟩)
      · exact Or.inr (Or.inl ⟨limits, ha, hi⟩)
    · rcases List.mem_append.mp hv with hv | hv
      · exact Or.inl (Or.inr ⟨v, x, hv, rfl⟩)
      · obtain ⟨rfl, rfl⟩ := Prod.mk.inj (List.mem_singleton.mp hv)
        exact Or.inr (Or.inr ⟨x, rfl, rfl⟩)
  · rintro ((⟨limits, h⟩ | ⟨v, x, hv, rfl⟩) | ⟨limits, ha, hi⟩ | ⟨x, rfl, rfl⟩)
    · exact Or.inl ⟨limits, h.append _⟩
    · exact Or.inr ⟨v, x, List.mem_append_left _ hv, rfl⟩
    · exact Or.inl ⟨limits, called_step.mpr (Or.inr ⟨ha, hi⟩)⟩
    · exact Or.inr ⟨s, x, by simp, rfl⟩

/-- A call that compiles has its batch in order, until the batch is over and its ledger closed. -/
def Stage.Sorted (units : List SourceUnit) (st : Stage) : Prop :=
  match st.batch? with
  | some b => b.Sorted units
  | none => st.ledger? = none

theorem CallMove.sorted {st st' : Stage} (hi : s.calls[i]? = some st)
    (hm : CallMove cfg s i a st u st') (h : st.Sorted units) : st'.Sorted units := by
  unfold Stage.Sorted at *
  rcases hm.batch_or_apart with ⟨b, next, hb, hbm, hn⟩ | hap
  · rw [hb] at h
    cases hb' : st'.batch? with
    | some b' => exact hbm.sorted h (hn.symm.trans hb')
    | none => exact hm.ledger_ended hb hb'
  · rw [hap.before] at h
    have hclosed : st'.ledger? = none := by
      by_contra hne
      obtain ⟨l', hl'⟩ := Option.ne_none_iff_exists'.mp hne
      obtain ⟨l, hl, -⟩ := hm.ledger hi hl'
      rw [h] at hl
      cases hl
    rcases hap.after with hnone | ⟨_, _, henter⟩
    · rw [hnone]
      exact hclosed
    · rw [Stage.ledger?_of_batch henter] at hclosed
      cases hclosed

theorem Run.sorted (h : Run cfg (.fresh now store ttl) past s) (hb : Batched past i units) :
    ∃ st, s.calls[i]? = some st ∧ st.Sorted units := by
  refine h.life (P := fun past _ o => ∀ units, Batched past i units →
    ∃ st, o = some st ∧ st.Sorted units) i ?_ ?_ ?_ ?_ units hb
  · rintro units (⟨_, v, hv, -⟩ | ⟨v, x, hv, -⟩) <;> cases hv
  · intro past s a t _ ha hne ht ih units hb
    rcases batched_step.mp hb with hb | ⟨limits, rfl, hi⟩ | ⟨x, rfl, -⟩
    · exact ih units hb
    · obtain rfl := Option.some.inj ha
      subst hi
      simp at ht
    · exact absurd rfl hne
  · intro past s r t _ _ _ ih units hb
    rcases batched_step.mp hb with hb | ⟨limits, hr, -⟩ | ⟨x, hx, -⟩
    · obtain ⟨st, hst, -⟩ := ih units hb
      cases hst
    · obtain rfl := Action.call.inj hr
      exact ⟨_, rfl, rfl⟩
    · cases hx
  · intro past s a u st st' _ hi hm ha ih units hb
    refine ⟨st', rfl, ?_⟩
    rcases batched_step.mp hb with hb | ⟨limits, rfl, -⟩ | ⟨x, rfl, rfl⟩
    · obtain ⟨st₁, hst, hsorted⟩ := ih units hb
      obtain rfl := Option.some.inj hst
      exact hm.sorted hi hsorted
    · cases hm.mover
    -- the source that is fetched is the one unit of a lookup's batch
    · have hu : u.calls[i]? = some st := by rw [hm.quietCalls]; exact hi
      cases st with
      | fetching n limits g deadline =>
        simp only [act, hi, Option.bind_some, receiveFetch, Option.map_some] at ha
        obtain rfl := setCall_inj (by exact hi) hu (Option.some.inj ha)
        exact rfl
      | _ => simp [act, hi, receiveFetch] at ha

theorem Run.sorted_of_view {b : BatchStage} (h : Run cfg (.fresh now store ttl) past s)
    (hb : Batched past i units) (hview : s.view Stage.batch? i = some b) : b.Sorted units := by
  obtain ⟨st, hi, hsorted⟩ := h.sorted hb
  unfold Stage.Sorted at hsorted
  rw [(view_of_call hi).symm.trans hview] at hsorted
  exact hsorted

theorem Run.batched_before {before after : List (State × Action)} (h : Run cfg t after s)
    (ht : t.ledger? i = none) (hb : Batched (before ++ after) i units) :
    Batched before i units := by
  induction h with
  | start => simpa using hb
  | @step after s a _ h ha ih =>
    obtain ⟨-, hclosed⟩ := h.no_handover ht
    rw [← List.append_assoc] at hb
    rcases batched_step.mp hb with hb | ⟨limits, rfl, hi⟩ | ⟨x, rfl, -⟩
    · exact ih hb
    · rw [State.ledger?, List.getElem?_eq_none (Nat.le_of_eq hi)] at hclosed
      cases hclosed
    · cases hi : s.calls[i]? with
      | none => simp [act, hi] at ha
      | some st =>
        rw [ledger?_of_call hi] at hclosed
        cases st with
        | fetching => cases hclosed
        | _ => simp [act, hi, receiveFetch] at ha

end

end Engine

/-- A report splits these names into three parts, each without repetitions and in the order in which
the names first occur. -/
structure Report.Partitions (r : Report) (names : List Name) : Prop where
  requested : r.requested = names
  ordered : ∀ part ∈ [r.skipped, r.joined, r.submitted],
    part.Pairwise fun a b => names.idxOf a < names.idxOf b
  disjoint : (r.skipped ++ r.joined ++ r.submitted).Nodup
  complete : ∀ n, n ∈ names ↔ n ∈ r.skipped ∨ n ∈ r.joined ∨ n ∈ r.submitted

namespace Engine

open State

section
variable {cfg : Settings} {now : Moment} {store : Store} {ttl : Option Duration}
  {past : List (State × Action)} {s t u : State} {a : Action} {i : Nat} {units : List SourceUnit}
  {b : Batch} {r : Report}

theorem Ledger.Recorded.submission {found led : List Name}
    (h : Ledger.Recorded past i ⟨b.requested, found, b.pending, led, []⟩) :
    (b.submission.map (·.name)).Perm b.pending := by
  have hnodup := h.balanced.nodup_iff.mpr (Name.nodup_distinct _)
  rw [List.append_nil, List.nodup_append] at hnodup
  refine (List.perm_ext_iff_of_nodup b.nodup_submission hnodup.2.1).mpr ?_
  intro n
  rw [Batch.mem_submission]
  exact ⟨And.right, fun hn => ⟨h.mem_requested.mpr (Or.inr (Or.inl hn)), hn⟩⟩

theorem Batch.Sorted.partitions (h : b.Sorted units []) {led : List Name}
    (hr : Ledger.Recorded past i
      ⟨b.requested, b.claims.done ++ b.joined, b.pending, led, []⟩) (produced : List Name) :
    (b.report (b.submission.map (·.name)) produced).Partitions (units.map (·.name)) := by
  have hrequested : b.requested = units.map (·.name) := by rw [Batch.requested, h.units]
  -- the ledger is balanced: what is done, joined and submitted is all there was
  have hall : (b.claims.done ++ b.joined ++ b.submission.map (·.name)).Perm
      (Name.distinct (units.map (·.name))) := by
    have hbalanced := hr.balanced
    rw [List.append_nil, hrequested] at hbalanced
    exact (hr.submission.append_left _).trans hbalanced
  constructor
  · exact hrequested
  · have hjoined := h.joined
    rw [List.append_nil] at hjoined
    intro part hpart
    refine (Name.pairwise_distinct _).sublist ?_
    simp only [List.mem_cons, List.not_mem_nil, or_false] at hpart
    rcases hpart with rfl | rfl | rfl
    · exact h.done
    · exact hjoined
    · rw [← hrequested]
      exact b.submission_sublist
  · exact hall.nodup_iff.mpr (Name.nodup_distinct _)
  · intro n
    rw [← Name.mem_distinct, ← hall.mem_iff, List.mem_append, List.mem_append, or_assoc]
    rfl

/-- What the compiler has been started on for call `i`. -/
def invocations (cfg : Settings) (past : List (State × Action)) (i : Nat) :
    List (List SourceUnit) :=
  (handovers past i).flatMap (starts cfg past)

/-- The report of a batch splits its names into what was stored, what another batch stored meanwhile
and what was handed to the compiler, which has been started for the batch once, on the first of its
units of each of these names, or not at all if there are none. -/
theorem report_partitions (h : Run cfg (.fresh now store ttl) past s)
    (hb : Batched past i units) (hr : Returned cfg past i (.reported r)) :
    r.Partitions (units.map (·.name)) ∧
    ∃ submitted, submitted.map (·.name) = r.submitted ∧
      (∀ u ∈ submitted, units.find? (·.name = u.name) = some u) ∧
      invocations cfg past i = if r.submitted = [] then [] else [submitted] := by
  obtain ⟨before, v, b, t, after, rfl, hbefore, hact, hafter, hview, hreports, hclosed, hhanded⟩ :=
    h.reported hr
  -- a batch is asked for once, before it reports
  have hbatched : Batched before i units := by
    rw [List.append_cons] at hb
    rcases batched_step.mp (hafter.batched_before hclosed hb) with hb | ⟨_, h, -⟩ | ⟨_, h, -⟩
    · exact hb
    · cases h
    · cases h
  have hsorted := hbefore.sorted_of_view hbatched hview
  have hhiring := hbefore.hiring_of_view hview
  generalize t.store = final at hreports
  -- idle batches hand nothing over, all others one job
  cases hreports with
  | @idle b hnil =>
    have hparts := Batch.Sorted.partitions hsorted
      (hbefore.recorded (State.ledger?_of_batch hview)) []
    rw [hnil] at hparts
    refine ⟨hparts, [], rfl, by simp, ?_⟩
    rw [invocations, hhanded, show handovers before i = [] from hhiring]
    rfl
  | @kept b submitted o produced _ hput =>
    obtain ⟨k, j, hired, hreturned⟩ := hhiring
    obtain ⟨j', hj', hunits, hstage⟩ :=
      ((Run.single hact).append hafter).job_kept hired.job
    obtain rfl := hired.names
    refine ⟨Batch.Sorted.partitions hsorted (hbefore.recorded (State.ledger?_of_batch hview)) _,
      b.submission, rfl, ?_, ?_⟩
    · intro u hu
      rw [← hsorted.units]
      exact Batch.find?_submission hu
    · have hne : (b.report (b.submission.map (·.name)) produced).submitted ≠ [] := by
        simpa [Batch.report] using hired.nonempty
      rw [if_neg hne, invocations, hhanded, hired.only]
      simp [h.starts k, State.begun, hj', hstage _ hreturned, JobStage.begun, hunits, hired.units]

end

/-! ## Batches that overlap -/

namespace Sample

def z : Name := ⟨"z", by decide +kernel⟩

def w : Name := ⟨"w", by decide +kernel⟩

def units : List SourceUnit :=
  [⟨z, "1", .localFile⟩, unit x, unit y, ⟨z, "2", .localFile⟩, unit w]

end Sample

/-- A batch waits for one that has two of its names in flight and stores one of them only. -/
def dividing : List Action :=
  List.flatten
    [[.put (.plain Sample.w .empty),
        .call (.compile [Sample.unit Sample.x, Sample.unit Sample.y] .unbounded),
        .call (.compile Sample.units .unbounded)],
      List.replicate 5 (.advance 0), List.replicate 6 (.advance 1),
      [.prepare 0, .built 0 (.output ⟨[.plain Sample.x .empty], []⟩)],
      List.replicate 4 (.advance 0), List.replicate 5 (.advance 1),
      [.prepare 1, .built 1 (.output ⟨[.plain Sample.z .empty, .plain Sample.y .empty], []⟩)],
      List.replicate 4 (.advance 1)]

def divided : Report where
  requested := [Sample.z, Sample.x, Sample.y, Sample.z, Sample.w]
  skipped := [Sample.w]
  joined := [Sample.x]
  submitted := [Sample.z, Sample.y]
  produced := [Sample.y, Sample.z]

theorem report_partitions_dividing :
    ∃ past s, Run Sample.settings (.fresh 0 .empty none) past s ∧
      Batched past 1 Sample.units ∧
      Returned Sample.settings past 1 (.reported divided) ∧
      divided.Partitions [Sample.z, Sample.x, Sample.y, Sample.z, Sample.w] ∧
      ∃ submitted, submitted.map (·.name) = [Sample.z, Sample.y] ∧
        (∀ u ∈ submitted, Sample.units.find? (·.name = u.name) = some u) ∧
        invocations Sample.settings past 1 = [submitted] := by
  have hperform : ((State.fresh 0 .empty none).perform Sample.settings dividing).any fun r =>
      r.2.calls[1]? = some (.finished (.batch (.reported divided))) ∧
      ∃ p ∈ r.1, p.2 = .call (.compile Sample.units .unbounded) ∧ p.1.calls.length = 1 := by
    decide +kernel
  obtain ⟨past, s, hrun, hreport, ⟨v, a⟩, hp, rfl, hlen⟩ := Run.of_any hperform
  have hbatched : Batched past 1 Sample.units := Or.inl ⟨_, v, hp, hlen⟩
  have hreturned := hrun.returned_of_answer hreport
  obtain ⟨hparts, submitted, hnames, hfirst, hinvoked⟩ :=
    report_partitions hrun hbatched hreturned
  exact ⟨past, s, hrun, hbatched, hreturned, hparts, submitted, hnames, hfirst, hinvoked⟩

end Engine

end OnDemand
