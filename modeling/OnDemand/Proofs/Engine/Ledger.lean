import OnDemand.Proofs.Engine.Holding

/-!
# What a batch knows of its names

A batch asks the store about each of its names once: about a name that nobody has in flight when it
claims it, and about a name in flight when that flight has ended. Its ledger sorts the names by what
the store said. The store may learn a name after the batch has asked, and the ledger does not tell;
so what a batch hands to the compiler is what was lacking when it asked (`Run.mem_submission_iff`).
-/

namespace OnDemand

namespace Engine

open State

variable {cfg : Settings} {s t : State} {a : Action} {i : Nat} {n : Name}
  {past : List (State × Action)}

/-! ## Looks -/

/-- A question of a batch to the store, and the answer. -/
structure Look where
  name : Name
  /-- Whether the batch has waited for a flight that had the name. -/
  waited : Bool
  stored : Bool
deriving DecidableEq

def BatchStage.look? (s : State) : BatchStage → Option Look
  | claiming _ _ (n :: _) _ =>
    if (s.building.flightOf? n).isNone then some ⟨n, false, s.store.contains n⟩ else none
  | checking _ n _ => some ⟨n, true, s.store.contains n⟩
  | _ => none

def State.look? (s : State) (i : Nat) (a : Action) : Option Look :=
  if a = .advance i then (s.view Stage.batch? i).bind (BatchStage.look? s) else none

def Looked (past : List (State × Action)) (i : Nat) (l : Look) : Prop :=
  ∃ p ∈ past, p.1.look? i p.2 = some l

theorem looked_step {l : Look} :
    Looked (past ++ [(s, a)]) i l ↔ Looked past i l ∨ s.look? i a = some l := by
  simp [Looked, or_and_right, exists_or]

theorem Looked.visited {l : Look} (h : Looked past i l) :
    ∃ u ∈ visited past s, u.store.contains l.name = l.stored := by
  obtain ⟨⟨u, a⟩, hp, hl⟩ := h
  refine ⟨u, mem_visited.mpr (Or.inr ⟨a, hp⟩), ?_⟩
  simp only [look?, Option.ite_none_right_eq_some, Option.bind_eq_some_iff] at hl
  obtain ⟨-, b, -, hb⟩ := hl
  unfold BatchStage.look? at hb
  split at hb
  · split at hb
    · obtain rfl := Option.some.inj hb
      rfl
    · cases hb
  · obtain rfl := Option.some.inj hb
    rfl
  · cases hb

/-! ## Ledgers -/

/-- The names of a batch, by what it knows of them. -/
structure Ledger where
  requested : List Name
  /-- Stored when asked about. -/
  found : List Name
  /-- Not stored when asked about. -/
  lacking : List Name
  /-- Those of the lacking names that the batch leads. -/
  led : List Name
  /-- Not yet asked about. -/
  waiting : List Name

namespace Ledger

def blank : Ledger := ⟨[], [], [], [], []⟩

inductive Move : Option Look → Ledger → Ledger → Prop where
  | rest (l : Ledger) : Move none l l
  | begin (names : List Name) : Move none blank ⟨names, [], [], [], Name.distinct names⟩
  | found {l : Ledger} (n w before after) : l.waiting = before ++ n :: after →
      Move (some ⟨n, w, true⟩) l
        { l with found := l.found ++ [n], waiting := before ++ after }
  | lead {l : Ledger} (n before after) : l.waiting = before ++ n :: after →
      Move (some ⟨n, false, false⟩) l
        { l with lacking := l.lacking ++ [n], led := l.led ++ [n], waiting := before ++ after }
  | take {l : Ledger} (n before after) : l.waiting = before ++ n :: after →
      Move (some ⟨n, true, false⟩) l
        { l with lacking := l.lacking ++ [n], waiting := before ++ after }

structure Recorded (past : List (State × Action)) (i : Nat) (l : Ledger) : Prop where
  found : ∀ n, n ∈ l.found ↔ ∃ w, Looked past i ⟨n, w, true⟩
  lacking : ∀ n, n ∈ l.lacking ↔ ∃ w, Looked past i ⟨n, w, false⟩
  led : ∀ n, n ∈ l.led ↔ Looked past i ⟨n, false, false⟩
  balanced : (l.found ++ l.lacking ++ l.waiting).Perm (Name.distinct l.requested)
  /-- Nothing is asked twice. -/
  once : ∀ {look look'}, Looked past i look → Looked past i look' → look.name = look'.name →
    look = look'

variable {l l' : Ledger}

theorem Recorded.mem_requested (h : l.Recorded past i) :
    n ∈ l.requested ↔ n ∈ l.found ∨ n ∈ l.lacking ∨ n ∈ l.waiting := by
  rw [← Name.mem_distinct, ← h.balanced.mem_iff, List.mem_append, List.mem_append, or_assoc]

theorem Recorded.disjoint (h : l.Recorded past i) :
    (n ∈ l.found → n ∉ l.lacking) ∧ (n ∈ l.waiting → n ∉ l.found ∧ n ∉ l.lacking) := by
  have hnodup := h.balanced.nodup_iff.mpr (Name.nodup_distinct _)
  rw [List.nodup_append, List.nodup_append] at hnodup
  obtain ⟨⟨-, -, hfl⟩, -, hw⟩ := hnodup
  refine ⟨fun hf hl => hfl n hf n hl rfl, fun hn => ⟨fun hf => ?_, fun hl => ?_⟩⟩
  · exact hw n (List.mem_append_left _ hf) n hn rfl
  · exact hw n (List.mem_append_right _ hl) n hn rfl

theorem Recorded.not_looked (h : l.Recorded past i) (hn : n ∈ l.waiting) (look : Look)
    (hlook : Looked past i look) : look.name ≠ n := by
  rintro rfl
  obtain ⟨hf, hl⟩ := h.disjoint.2 hn
  rcases look with ⟨n, w, stored⟩
  cases stored with
  | true => exact hf ((h.found n).mpr ⟨w, hlook⟩)
  | false => exact hl ((h.lacking n).mpr ⟨w, hlook⟩)

theorem Recorded.once_step (h : l.Recorded past i) {new : Look} (hlook : s.look? i a = some new)
    (hn : new.name ∈ l.waiting) {look look' : Look} (hl : Looked (past ++ [(s, a)]) i look)
    (hl' : Looked (past ++ [(s, a)]) i look') (he : look.name = look'.name) : look = look' := by
  rw [looked_step, hlook] at hl hl'
  rcases hl with hl | hl <;> rcases hl' with hl' | hl'
  · exact h.once hl hl' he
  · obtain rfl := Option.some.inj hl'
    exact absurd he (h.not_looked hn look hl)
  · obtain rfl := Option.some.inj hl
    exact absurd he.symm (h.not_looked hn look' hl')
  · exact Option.some.inj (hl.symm.trans hl')

theorem Recorded.rest (h : l.Recorded past i) (hlook : s.look? i a = none) :
    l.Recorded (past ++ [(s, a)]) i := by
  have hiff : ∀ look, Looked (past ++ [(s, a)]) i look ↔ Looked past i look := by
    intro look
    rw [looked_step, hlook]
    simp
  constructor
  · intro n
    simp only [hiff, h.found n]
  · intro n
    simp only [hiff, h.lacking n]
  · intro n
    rw [hiff, h.led n]
  · exact h.balanced
  · intro look look' hl hl'
    exact h.once ((hiff look).mp hl) ((hiff look').mp hl')

theorem Recorded.move (h : l.Recorded past i) (hm : Move (s.look? i a) l l') :
    l'.Recorded (past ++ [(s, a)]) i := by
  generalize hlook : s.look? i a = look at hm
  -- a look goes where its answer belongs, and the counts stay balanced
  cases hm with
  | rest => exact h.rest hlook
  | begin names =>
    obtain ⟨hf, hl, hd, -, ho⟩ := h.rest hlook
    exact ⟨hf, hl, hd, .refl _, ho⟩
  | found n w before after hw =>
    refine ⟨fun m => ?_, fun m => ?_, fun m => ?_, ?_, h.once_step hlook (by simp [hw])⟩
    · simp [h.found m, looked_step, hlook, exists_or, eq_comm]
    · simp [h.lacking m, looked_step, hlook]
    · simp [h.led m, looked_step, hlook]
    · refine List.Perm.trans ?_ h.balanced
      rw [hw, List.perm_iff_count]
      intro m
      simp only [List.count_append, List.count_cons, List.count_nil]
      omega
  | lead n before after hw =>
    refine ⟨fun m => ?_, fun m => ?_, fun m => ?_, ?_, h.once_step hlook (by simp [hw])⟩
    · simp [h.found m, looked_step, hlook]
    · simp [h.lacking m, looked_step, hlook, exists_or, eq_comm]
    · simp [h.led m, looked_step, hlook, eq_comm]
    · refine List.Perm.trans ?_ h.balanced
      rw [hw, List.perm_iff_count]
      intro m
      simp only [List.count_append, List.count_cons, List.count_nil]
      omega
  | take n before after hw =>
    refine ⟨fun m => ?_, fun m => ?_, fun m => ?_, ?_, h.once_step hlook (by simp [hw])⟩
    · simp [h.found m, looked_step, hlook]
    · simp [h.lacking m, looked_step, hlook, exists_or, eq_comm]
    · simp [h.led m, looked_step, hlook]
    · refine List.Perm.trans ?_ h.balanced
      rw [hw, List.perm_iff_count]
      intro m
      simp only [List.count_append, List.count_cons, List.count_nil]
      omega

end Ledger

/-- The ledger of a batch, until it has handed its names to the compiler and stored the output. -/
def BatchStage.ledger? : BatchStage → Option Ledger
  | entering units _ =>
    some ⟨units.map (·.name), [], [], [], Name.distinct (units.map (·.name))⟩
  | claiming units _ rest c =>
    some ⟨units.map (·.name), c.done, c.led, c.led, c.followed.map (·.1) ++ rest⟩
  | following b rest _ =>
    some ⟨b.requested, b.claims.done ++ b.joined, b.pending, b.claims.led, rest.map (·.1)⟩
  | checking b n rest =>
    some ⟨b.requested, b.claims.done ++ b.joined, b.pending, b.claims.led, n :: rest.map (·.1)⟩
  | submitting b => some ⟨b.requested, b.claims.done ++ b.joined, b.pending, b.claims.led, []⟩
  | building b _ _ _ => some ⟨b.requested, b.claims.done ++ b.joined, b.pending, b.claims.led, []⟩
  | storing b _ _ => some ⟨b.requested, b.claims.done ++ b.joined, b.pending, b.claims.led, []⟩
  | _ => none

/-- The ledger of a call: blank until it has a batch, and gone when its batch has ended. -/
def Stage.ledger? : Stage → Option Ledger
  | looking _ _ => some .blank
  | missed _ _ => some .blank
  | remembering _ _ => some .blank
  | claiming _ _ => some .blank
  | departing _ _ _ => some .blank
  | fetching _ _ _ _ => some .blank
  | compiling _ _ b => b.ledger?
  | batch b => b.ledger?
  | _ => none

theorem Onward.ledger {now : Moment} {b : Batch} {rest : List (Name × Nat)} {next : BatchStage ⊕ BatchEnd}
    {b' : BatchStage} {l : Ledger} (h : Onward now b rest next) (hb : next.getLeft? = some b')
    (hl : b'.ledger? = some l) :
    l = ⟨b.requested, b.claims.done ++ b.joined, b.pending, b.claims.led, rest.map (·.1)⟩ := by
  rcases h.stage hb with ⟨rfl, rfl⟩ | ⟨deadline, rfl⟩ | rfl
  · exact (Option.some.inj hl).symm
  · exact (Option.some.inj hl).symm
  · cases hl

theorem ledger?_endBatch {c : Claims} {ending : BatchEnd} {b' : BatchStage}
    (hb : (endBatch c ending).getLeft? = some b') : b'.ledger? = none := by
  rw [endBatch_stage hb]
  rfl

theorem ledger_rest {b : BatchStage} {l : Ledger} (hl : b.ledger? = some l)
    (hlook : b.look? s = none) :
    ∃ l', b.ledger? = some l' ∧ Ledger.Move (if a = .advance i then b.look? s else none) l' l := by
  refine ⟨l, hl, ?_⟩
  rw [hlook, ite_self]
  exact .rest _

theorem BatchMove.ledger {b b' : BatchStage} {next : BatchStage ⊕ BatchEnd} {l' : Ledger}
    (h : BatchMove cfg s i a b t next) (hb : next.getLeft? = some b') (hl : b'.ledger? = some l') :
    ∃ l, b.ledger? = some l ∧
      Ledger.Move (if a = .advance i then b.look? s else none) l l' := by
  -- claims and checks ask the store, and no other move does
  cases h with
  | enter =>
    obtain rfl := Option.some.inj hb
    exact ledger_rest hl rfl
  | follow hf =>
    obtain rfl := Option.some.inj hb
    obtain rfl := Option.some.inj hl
    refine ⟨_, rfl, ?_⟩
    rw [if_pos rfl, BatchStage.look?, hf, List.map_append, List.append_assoc]
    exact .rest _
  | skip hf hs =>
    obtain rfl := Option.some.inj hb
    obtain rfl := Option.some.inj hl
    refine ⟨_, rfl, ?_⟩
    rw [if_pos rfl, BatchStage.look?, hf, hs]
    exact .found _ _ _ _ rfl
  | lead hf hs =>
    obtain rfl := Option.some.inj hb
    obtain rfl := Option.some.inj hl
    refine ⟨_, rfl, ?_⟩
    rw [if_pos rfl, BatchStage.look?, hf, hs]
    exact .lead _ _ _ rfl
  | claimed ho =>
    obtain rfl := ho.ledger hb hl
    refine ⟨_, rfl, ?_⟩
    rw [if_pos rfl, List.append_nil, List.append_nil]
    exact .rest _
  | arrive =>
    obtain rfl := Option.some.inj hb
    exact ledger_rest hl rfl
  | arriveAll =>
    obtain rfl := Option.some.inj hb
    exact ledger_rest hl rfl
  | @join b n rest next hs ho =>
    obtain rfl := ho.ledger hb hl
    refine ⟨_, rfl, ?_⟩
    rw [if_pos rfl, BatchStage.look?, hs, ← List.append_assoc]
    exact .found n true [] _ rfl
  | @takeOver b n rest next hs ho =>
    obtain rfl := ho.ledger hb hl
    refine ⟨_, rfl, ?_⟩
    rw [if_pos rfl, BatchStage.look?, hs]
    exact .take n [] _ rfl
  | submit =>
    obtain rfl := Option.some.inj hb
    exact ledger_rest hl rfl
  | receive =>
    obtain rfl := Option.some.inj hb
    exact ledger_rest hl rfl
  | release =>
    obtain rfl := Option.some.inj hb
    cases hl
  | land => cases hb
  | idle | fail | keep | conflict | expireWait | expireBuild =>
    cases hl.symm.trans (ledger?_endBatch hb)

theorem Stage.ledger?_of_batch {st : Stage} {b : BatchStage} (h : st.batch? = some b) :
    st.ledger? = b.ledger? := by
  cases st with
  | compiling n g b' =>
    obtain rfl := Option.some.inj h
    rfl
  | batch b' =>
    obtain rfl := Option.some.inj h
    rfl
  | _ => cases h

theorem ledger?_afterBatch (n : Name) (g : Guard) (next : BatchStage ⊕ BatchEnd) :
    (afterBatch n g next).ledger? = next.getLeft?.bind BatchStage.ledger? := by
  rcases next with b | e
  · rfl
  · cases e <;> rfl

theorem ledger?_afterOwnBatch (next : BatchStage ⊕ BatchEnd) :
    (afterOwnBatch next).ledger? = next.getLeft?.bind BatchStage.ledger? := by
  rcases next with b | e <;> rfl

theorem CallMove.ledger {st st' : Stage} {l' : Ledger} (hi : s.calls[i]? = some st)
    (h : CallMove cfg s i a st t st') (hl : st'.ledger? = some l') :
    ∃ l, st.ledger? = some l ∧ Ledger.Move (s.look? i a) l l' := by
  have hview : s.view Stage.batch? i = st.batch? := view_of_call hi
  -- without a batch the store is not asked
  have hnone : st.batch? = none → s.look? i a = none := by
    intro hb
    rw [State.look?, hview, hb]
    simp
  cases h with
  | compile hb =>
    rw [ledger?_afterBatch, Option.bind_eq_some_iff] at hl
    obtain ⟨b', hb', hl⟩ := hl
    rw [State.look?, hview]
    exact hb.ledger hb' hl
  | own hb =>
    rw [ledger?_afterOwnBatch, Option.bind_eq_some_iff] at hl
    obtain ⟨b', hb', hl⟩ := hl
    rw [State.look?, hview]
    exact hb.ledger hb' hl
  | fetched =>
    obtain rfl := Option.some.inj hl
    rw [hnone rfl]
    exact ⟨_, rfl, .begin _⟩
  | miss =>
    rw [hnone rfl]
    exact ⟨_, hl, .rest _⟩
  | isRemote =>
    rw [hnone rfl]
    exact ⟨_, hl, .rest _⟩
  | forgetful =>
    rw [hnone rfl]
    exact ⟨_, hl, .rest _⟩
  | forgotten =>
    rw [hnone rfl]
    exact ⟨_, hl, .rest _⟩
  | lead =>
    rw [hnone rfl]
    exact ⟨_, hl, .rest _⟩
  | depart =>
    rw [hnone rfl]
    exact ⟨_, hl, .rest _⟩
  | _ => cases hl

/-! ## Runs -/

def State.ledger? (s : State) (i : Nat) : Option Ledger :=
  match s.calls[i]? with
  | some st => st.ledger?
  | none => some .blank

theorem Run.recorded {now : Moment} {store : Store} {ttl : Option Duration} {l : Ledger}
    (h : Run cfg (.fresh now store ttl) past s) (hl : s.ledger? i = some l) :
    l.Recorded past i := by
  have hempty : ∀ look, ¬ Looked [] i look := fun look ⟨p, hp, _⟩ => by cases hp
  induction h generalizing l with
  | start =>
    obtain rfl : Ledger.blank = l := by simpa [State.ledger?, State.fresh] using hl
    constructor <;> simp [Ledger.blank, hempty, Name.distinct]
  | @step past s a t hr ha ih =>
    have hst := step_of_act ha
    cases hi : s.calls[i]? with
    | some st =>
      rcases hst.call_before hi with ⟨hmover, hi'⟩ | ⟨u, st', hm, -, hi'⟩
      · refine (ih ?_).rest ?_
        · rw [State.ledger?, hi]
          rw [State.ledger?, hi'] at hl
          exact hl
        · rw [State.look?, if_neg]
          rintro rfl
          exact hmover rfl
      · rw [State.ledger?, hi'] at hl
        obtain ⟨l₀, hl₀, hmove⟩ := hm.ledger hi hl
        refine (ih ?_).move hmove
        rw [State.ledger?, hi]
        exact hl₀
    | none =>
      have hblank := ih (l := .blank) (by rw [State.ledger?, hi])
      have hlook : s.look? i a = none := by simp [State.look?, State.view, hi]
      -- there was no such call, so its ledger was blank
      cases hi' : t.calls[i]? with
      | none =>
        obtain rfl : Ledger.blank = l := by simpa [State.ledger?, hi'] using hl
        exact hblank.rest hlook
      | some st' =>
        rw [State.ledger?, hi'] at hl
        rcases hst.call_after hi' with hi' | ⟨-, r, -, rfl⟩ | ⟨st, u, hi', -⟩
        · rw [hi] at hi'
          cases hi'
        · refine hblank.move ?_
          rw [hlook]
          cases r with
          | resolve n limits =>
            obtain rfl := Option.some.inj hl
            exact .rest _
          | compile units limits =>
            obtain rfl := Option.some.inj hl
            exact .begin _
          | _ => cases hl
        · rw [hi] at hi'
          cases hi'

end Engine

end OnDemand
