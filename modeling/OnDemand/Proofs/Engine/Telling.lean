import OnDemand.Proofs.Engine.Launch

/-!
# What the moves tell

Of the fetches and the compiler runs, each move tells at most one beginning or one end. A call tells
the beginning and the end of its fetch and the end of its compiler run (`word_of_move`), and its job
tells the beginning of the run (`tells_prepare`).
-/

namespace OnDemand

/-! ## Beginnings and ends -/

namespace Event

def endsFetch (n : Name) : Event → Bool
  | fetched m _ => m = n
  | fetchFailed m _ => m = n
  | timedOut .fetch m => m = some n
  | _ => false

def endsBuild : Event → Bool
  | compiled _ _ => true
  | compileFailed _ _ _ => true
  | timedOut .compile _ => true
  | _ => false

def startsBuild : Event → Bool
  | compileStarted _ _ _ _ => true
  | _ => false

def opens : Event → Bool
  | fetchStarted _ _ => true
  | compileStarted _ _ _ _ => true
  | _ => false

def closedBy : Event → Event → Bool
  | fetchStarted n _ => endsFetch n
  | compileStarted _ _ _ _ => endsBuild
  | _ => fun _ => false

def ofFetch : Event → Bool
  | fetchStarted _ _ => true
  | fetched _ _ => true
  | fetchFailed _ _ => true
  | timedOut .fetch _ => true
  | _ => false

def ofBuild (e : Event) : Bool :=
  e.startsBuild || e.endsBuild

def marked (e : Event) : Bool :=
  e.ofFetch || e.ofBuild

theorem ofFetch_of_endsFetch {n : Name} {e : Event} (h : e.endsFetch n = true) :
    e.ofFetch = true := by
  unfold endsFetch at h
  split at h <;> first | rfl | cases h

theorem ofBuild_of_ofFetch {e : Event} (h : e.ofFetch = true) : e.ofBuild = false := by
  unfold ofFetch at h
  split at h <;> first | rfl | cases h

theorem ofFetch_of_ofBuild {e : Event} (h : e.ofBuild = true) : e.ofFetch = false := by
  by_contra hf
  rw [ofBuild_of_ofFetch (eq_true_of_ne_false hf)] at h
  cases h

theorem ofBuild_of_startsBuild {e : Event} (h : e.startsBuild = true) : e.ofBuild = true := by
  simp [ofBuild, h]

theorem ofBuild_of_endsBuild {e : Event} (h : e.endsBuild = true) : e.ofBuild = true := by
  simp [ofBuild, h]

theorem opens_of_startsBuild {e : Event} (h : e.startsBuild = true) : e.opens = true := by
  cases e with
  | compileStarted => rfl
  | _ => cases h

theorem closedBy_of_startsBuild {e : Event} (h : e.startsBuild = true) : e.closedBy = endsBuild := by
  cases e with
  | compileStarted => rfl
  | _ => cases h

theorem not_startsBuild_of_endsBuild {e : Event} (h : e.endsBuild = true) :
    ¬ e.startsBuild = true := by
  cases e with
  | compileStarted => cases h
  | _ => simp [startsBuild]

theorem not_opens_of_endsFetch {n : Name} {e : Event} (h : e.endsFetch n = true) :
    ¬ e.opens = true := by
  unfold endsFetch at h
  split at h <;> simp_all [opens]

end Event

namespace Engine

open State

def State.Tells (s t : State) (es : List Event) : Prop :=
  ∃ all, t.told = s.told ++ all ∧ all.filter Event.marked = es

variable {cfg : Settings} {s t u : State} {a : Action} {i k : Nat}

theorem tells_of_eq (h : t.told = s.told) : s.Tells t [] :=
  ⟨[], by rw [h, List.append_nil], rfl⟩

theorem tells_tell {e : Event} {es : List Event} (h : [e].filter Event.marked = es) :
    s.Tells (s.tell e) es :=
  ⟨[e], rfl, h⟩

theorem State.Tells.setCall {es : List Event} (h : s.Tells t es) (i : Nat) (st : Stage) :
    s.Tells (t.setCall i st) es := h

theorem State.Tells.setJob {es : List Event} (h : s.Tells t es) (k : Nat) (st : JobStage) :
    s.Tells (t.setJob k st) es := h

theorem tells_tellLookup {e : Event} (h : e.marked = false) : s.Tells (s.tellLookup cfg e) [] := by
  unfold tellLookup
  split
  · exact tells_tell (by simp [h])
  · exact tells_of_eq rfl

theorem tells_read (n : Name) : s.Tells (s.read cfg n).1 [] := by
  unfold State.read
  split
  · exact tells_tellLookup rfl
  · exact tells_of_eq rfl

theorem tells_record (n : Name) (r : Resolution) : s.Tells (s.record n r).1 [] := by
  unfold State.record
  split
  · split <;> exact tells_of_eq rfl
  · exact tells_of_eq rfl

theorem tells_submit (b : Batch) : s.Tells (s.submit cfg b).1 [] := by
  by_cases hs : b.submission.isEmpty = true
  · simp only [State.submit, if_pos hs]
    split
    · exact tells_tell rfl
    · exact tells_of_eq rfl
  · simp only [State.submit, if_neg hs]
    exact tells_of_eq rfl

theorem tells_claimLookup (n : Name) (limits : Limits) : s.Tells (s.claimLookup n limits).1 [] := by
  simp only [claimLookup]
  split
  · have hjoined : s.Tells ({ s with resolving :=
        (s.resolving.claimBatch s.store.contains [n]).1 }.tell (.joined n)) [] :=
      ⟨[.joined n], rfl, rfl⟩
    cases limits.total? with
    | none => exact hjoined
    | some w =>
      cases w with
      | none => exact hjoined
      | some wait =>
        simp only
        split <;> exact hjoined
  · exact tells_of_eq rfl
  · exact tells_of_eq rfl

/-! ## Batches -/

def BatchStage.Working : BatchStage → Prop
  | building _ _ _ _ => True
  | storing _ _ _ => True
  | _ => False

inductive BatchWord : BatchStage → BatchStage ⊕ BatchEnd → List Event → Prop where
  | silent {b next} : ¬ b.Working → BatchWord b next []
  | made {b submitted k deadline o} :
      BatchWord (.building b submitted k deadline) (.inl (.storing b submitted o)) []
  | ended {b c ending e} : b.Working → e.endsBuild = true → BatchWord b (endBatch c ending) [e]

theorem word_receive (b : Batch) (submitted : List Name) (deadline : Option Moment)
    (r : JobEnd) : ∃ es, BatchWord (.building b submitted k deadline)
      (s.receive b submitted r).2 es ∧ s.Tells (s.receive b submitted r).1 es := by
  cases r with
  | unstarted => exact ⟨_, .ended trivial rfl, tells_tell rfl⟩
  | ended reply =>
    cases reply with
    | output o => exact ⟨[], .made, tells_of_eq rfl⟩
    | failed f => exact ⟨_, .ended trivial rfl, tells_tell rfl⟩
    | crashed => exact ⟨_, .ended trivial rfl, tells_tell rfl⟩

theorem word_keep (b : Batch) (submitted : List Name) (o : BuildOutput) :
    ∃ es, BatchWord (.storing b submitted o) (s.keep b submitted o).2 es ∧
      s.Tells (s.keep b submitted o).1 es := by
  unfold State.keep
  split
  · exact ⟨_, .ended trivial rfl, [_], rfl, rfl⟩
  · exact ⟨_, .ended trivial rfl, tells_tell rfl⟩

theorem word_advanceBatch {b : BatchStage} {r : State × (BatchStage ⊕ BatchEnd)}
    (h : s.advanceBatch cfg i b = some r) : ∃ es, BatchWord b r.2 es ∧ s.Tells r.1 es := by
  cases b with
  | entering units limits =>
    simp only [advanceBatch, Option.ite_none_right_eq_some] at h
    obtain rfl := Option.some.inj h.2
    exact ⟨[], .silent id, tells_of_eq rfl⟩
  | claiming units limits rest c =>
    cases rest <;> obtain rfl := Option.some.inj h <;> exact ⟨[], .silent id, tells_of_eq rfl⟩
  | following b rest deadline =>
    cases rest with
    | nil =>
      obtain rfl := Option.some.inj h
      exact ⟨[], .silent id, tells_of_eq rfl⟩
    | cons p rest =>
      simp only [advanceBatch] at h
      split at h
      · cases h
      · obtain rfl := Option.some.inj h
        exact ⟨[], .silent id, tells_of_eq rfl⟩
  | checking b n rest =>
    obtain rfl := Option.some.inj h
    exact ⟨[], .silent id, tells_of_eq rfl⟩
  | submitting b =>
    obtain rfl := Option.some.inj h
    exact ⟨[], .silent id, tells_submit b⟩
  | building b submitted k deadline =>
    simp only [advanceBatch] at h
    split at h
    · obtain rfl := Option.some.inj h
      exact word_receive b submitted deadline _
    · cases h
  | storing b submitted o =>
    obtain rfl := Option.some.inj h
    exact word_keep b submitted o
  | releasing g e =>
    simp only [advanceBatch, Option.ite_none_right_eq_some] at h
    obtain rfl := Option.some.inj h.2
    exact ⟨[], .silent id, tells_of_eq rfl⟩
  | landing g e =>
    obtain rfl := Option.some.inj h
    exact ⟨[], .silent id, tells_of_eq rfl⟩

theorem word_expireBatch {b : BatchStage} {r : State × (BatchStage ⊕ BatchEnd)}
    (h : s.expireBatch b = some r) : ∃ es, BatchWord b r.2 es ∧ s.Tells r.1 es := by
  unfold expireBatch at h
  split at h
  · split at h
    · simp only [Option.ite_none_right_eq_some] at h
      obtain rfl := Option.some.inj h.2
      exact ⟨[], .silent id, tells_tell rfl⟩
    · cases h
  · split at h
    · cases h
    · simp only [Option.ite_none_right_eq_some] at h
      obtain rfl := Option.some.inj h.2
      exact ⟨_, .ended trivial rfl, tells_tell rfl⟩
    · cases h
  · cases h

/-! ## Calls -/

def Stage.Silent : Stage → Prop
  | departing _ _ _ => False
  | fetching _ _ _ _ => False
  | compiling _ _ b => ¬ b.Working
  | batch b => ¬ b.Working
  | _ => True

inductive Word (cfg : Settings) (i : Nat) (a : Action) : Stage → Stage → List Event → Prop where
  | silent {st st'} : st.Silent → Word cfg i a st st' []
  | departs {n limits g deadline} : Word cfg i a (.departing n limits g)
      (.fetching n limits g deadline) [.fetchStarted n cfg.repository]
  | lost {n limits g deadline r} : a = .fetched i .crashed →
      Word cfg i a (.fetching n limits g deadline) (.recording n g r) []
  | fetched {n limits g deadline st' e} : a ≠ .fetched i .crashed → e.endsFetch n = true →
      Word cfg i a (.fetching n limits g deadline) st' [e]
  | batch {b st next es} : st.batch? = some b → BatchWord b next es →
      Word cfg i a st (st.resume next) es

theorem word_advance {st : Stage} {r : State × Stage} (h : s.advance cfg i st = some r) :
    ∃ es, Word cfg i (.advance i) st r.2 es ∧ s.Tells r.1 es := by
  cases st with
  | recalling n =>
    obtain rfl := Option.some.inj h
    exact ⟨[], .silent trivial, tells_read n⟩
  | looking n limits =>
    have hread : s.Tells (s.read cfg n).1 [] := tells_read n
    simp only [State.advance] at h
    split at h <;> rename_i hr <;> rw [hr] at hread <;> obtain rfl := Option.some.inj h <;>
      exact ⟨[], .silent trivial, hread⟩
  | missed n limits =>
    obtain rfl := Option.some.inj h
    exact ⟨[], .silent trivial, tells_tellLookup rfl⟩
  | remembering n limits =>
    simp only [State.advance] at h
    split at h
    · obtain rfl := Option.some.inj h
      exact ⟨[], .silent trivial, tells_of_eq rfl⟩
    · split at h <;> obtain rfl := Option.some.inj h
      · exact ⟨[], .silent trivial, [.negativeHit n], rfl, rfl⟩
      · exact ⟨[], .silent trivial, tells_of_eq rfl⟩
  | claiming n limits =>
    obtain rfl := Option.some.inj h
    exact ⟨[], .silent trivial, tells_claimLookup n limits⟩
  | rereading n =>
    obtain rfl := Option.some.inj h
    exact ⟨[], .silent trivial, tells_read n⟩
  | following n f timeout deadline =>
    simp only [State.advance] at h
    split at h
    · obtain rfl := Option.some.inj h
      exact ⟨[], .silent trivial, tells_of_eq rfl⟩
    · obtain rfl := Option.some.inj h
      exact ⟨[], .silent trivial, tells_of_eq rfl⟩
    · cases h
  | departing n limits g =>
    obtain rfl := Option.some.inj h
    exact ⟨_, .departs, tells_tell rfl⟩
  | fetching => cases h
  | compiling n g b =>
    simp only [State.advance, Option.map_eq_some_iff] at h
    obtain ⟨r', hb, rfl⟩ := h
    obtain ⟨es, hword, htells⟩ := word_advanceBatch hb
    exact ⟨es, .batch rfl hword, htells⟩
  | rechecking n g =>
    obtain rfl := Option.some.inj h
    exact ⟨[], .silent trivial, tells_read n⟩
  | recording n g r' =>
    obtain rfl := Option.some.inj h
    exact ⟨[], .silent trivial, tells_record n r'⟩
  | releasing g e =>
    obtain rfl := Option.some.inj h
    exact ⟨[], .silent trivial, tells_of_eq rfl⟩
  | landing g e =>
    obtain rfl := Option.some.inj h
    exact ⟨[], .silent trivial, tells_of_eq rfl⟩
  | batch b =>
    simp only [State.advance, Option.map_eq_some_iff] at h
    obtain ⟨r', hb, rfl⟩ := h
    obtain ⟨es, hword, htells⟩ := word_advanceBatch hb
    exact ⟨es, .batch rfl hword, htells⟩
  | finished => cases h

theorem word_expire {st : Stage} {r : State × Stage} (h : s.expire st = some r) :
    ∃ es, Word cfg i (.expire i) st r.2 es ∧ s.Tells r.1 es := by
  unfold State.expire at h
  split at h
  · split at h
    · simp only [Option.ite_none_right_eq_some] at h
      obtain rfl := Option.some.inj h.2
      exact ⟨[], .silent trivial, tells_tell rfl⟩
    · cases h
  · split at h
    · simp only [Option.ite_none_right_eq_some] at h
      obtain rfl := Option.some.inj h.2
      exact ⟨_, .fetched (by simp) (by simp [Event.endsFetch]), tells_tell rfl⟩
    · cases h
  · obtain ⟨r', hb, rfl⟩ := Option.map_eq_some_iff.mp h
    obtain ⟨es, hword, htells⟩ := word_expireBatch hb
    exact ⟨es, .batch rfl hword, htells⟩
  · obtain ⟨r', hb, rfl⟩ := Option.map_eq_some_iff.mp h
    obtain ⟨es, hword, htells⟩ := word_expireBatch hb
    exact ⟨es, .batch rfl hword, htells⟩
  · cases h

theorem word_receiveFetch {st : Stage} {reply : FetchReply} {r : State × Stage}
    (h : s.receiveFetch cfg reply st = some r) :
    ∃ es, Word cfg i (.fetched i reply) st r.2 es ∧ s.Tells r.1 es := by
  unfold State.receiveFetch at h
  split at h
  · cases reply with
    | crashed =>
      obtain rfl := Option.some.inj h
      exact ⟨[], .lost rfl, tells_of_eq rfl⟩
    | _ =>
      obtain rfl := Option.some.inj h
      exact ⟨_, .fetched (by simp) (by simp [Event.endsFetch]), tells_tell rfl⟩
  · cases h

/-- What a call tells goes with the stages it leaves and comes to. -/
theorem word_of_move {st st' : Stage} (h : s.act cfg a = some t) (hi : s.calls[i]? = some st)
    (ha : a.mover? = some i) (hi' : t.calls[i]? = some st') :
    ∃ es, Word cfg i a st st' es ∧ s.Tells t es := by
  cases a with
  | advance j =>
    obtain rfl := Option.some.inj ha
    simp only [act, hi, Option.bind_some, Option.map_eq_some_iff] at h
    obtain ⟨r, hr, rfl⟩ := h
    obtain rfl := Option.some.inj (((callMove_of_advance hr).placed hi).symm.trans hi')
    exact word_advance hr
  | expire j =>
    obtain rfl := Option.some.inj ha
    simp only [act, hi, Option.bind_some, Option.map_eq_some_iff] at h
    obtain ⟨r, hr, rfl⟩ := h
    have hm : CallMove cfg s j (.expire j) st r.1 r.2 := callMove_of_expire hr
    obtain rfl := Option.some.inj ((hm.placed hi).symm.trans hi')
    exact word_expire hr
  | fetched j reply =>
    obtain rfl := Option.some.inj ha
    simp only [act, hi, Option.bind_some, Option.map_eq_some_iff] at h
    obtain ⟨r, hr, rfl⟩ := h
    obtain rfl := Option.some.inj (((callMove_of_fetched hr).placed hi).symm.trans hi')
    exact word_receiveFetch hr
  | _ => cases ha

/-! ## Jobs -/

/-- A job tells that the compiler starts, and nothing else. -/
theorem tells_prepare (h : s.act cfg (.prepare k) = some t) :
    (∃ l e, s.launch? cfg (.prepare k) = some l ∧ e.startsBuild = true ∧ s.Tells t [e]) ∨
      (s.launch? cfg (.prepare k) = none ∧ s.Tells t []) := by
  obtain ⟨j, hj, hp⟩ := Option.bind_eq_some_iff.mp h
  rw [launch?_prepare hj]
  unfold State.prepare at hp
  split at hp
  · rename_i hs
    simp only [Option.ite_none_right_eq_some] at hp
    obtain rfl := Option.some.inj hp.2
    exact Or.inr ⟨by rw [if_neg (by simp [hs])], tells_of_eq rfl⟩
  · rename_i hs
    obtain rfl := Option.some.inj hp
    refine Or.inl ⟨_, _, if_pos hs, ?_, (tells_tell rfl).setJob k _⟩
    rfl
  · cases hp

end Engine

end OnDemand
