import OnDemand.Proofs.Engine.SingleFlight

/-!
# Lookups agree

A lookup has what it found from the store: it has read it there itself, or its leader has. The store
keeps what it holds, so a lookup that found an artifact found the one that the store has under the
name from then on (`found_agree`), and no two lookups of a name find different ones.
-/

namespace OnDemand.Engine

open State

variable {cfg : Settings} {s t : State} {a : Action} {i j f : Nat} {m n : Name} {x : Artifact}
  {st st' : Stage}

/-! ## What a call wants -/

def Request.wanted? : Request → Option Name
  | .resolve n _ => some n
  | .recall n => some n
  | .compile _ _ => none

def Stage.Wants (n : Name) : Stage → Prop
  | recalling m => m = n
  | looking m _ => m = n
  | missed m _ => m = n
  | remembering m _ => m = n
  | claiming m _ => m = n
  | rereading m => m = n
  | following m _ _ _ => m = n
  | departing m _ _ => m = n
  | fetching m _ _ _ => m = n
  | compiling m _ _ => m = n
  | rechecking m _ => m = n
  | recording m _ _ => m = n
  | releasing g _ => g.names = [n]
  | landing _ _ => True
  | batch _ => False
  | finished (.batch _) => False
  | finished _ => True

def Stage.IsOwn : Stage → Prop
  | batch _ => True
  | finished (.batch _) => True
  | _ => False

def Stage.IsFor (r : Request) (st : Stage) : Prop :=
  match r.wanted? with
  | some n => st.Wants n
  | none => st.IsOwn

theorem isFor_stage (r : Request) : r.stage.IsFor r := by
  cases r with
  | compile units limits => exact trivial
  | _ => exact rfl

theorem wants_afterBatch {g : Guard} (hg : g.names = [n]) (next : BatchStage ⊕ BatchEnd) :
    (afterBatch n g next).Wants n := by
  rcases next with b | e
  · exact rfl
  · cases e with
    | reported r => exact rfl
    | failed e => exact rfl
    | overflowed o => exact hg

theorem CallMove.wants (h : CallMove cfg s i a st t st') (hs : st.Sole) (hw : st.Wants n) :
    st'.Wants n := by
  -- a lookup wants its name until it has answered
  cases h with
  | @compile m g b =>
    obtain rfl : m = n := hw
    exact wants_afterBatch hs _
  | @record m g r =>
    obtain rfl : m = n := hw
    exact hs
  | miss => exact hw
  | isRemote => exact hw
  | forgetful => exact hw
  | forgotten => exact hw
  | follow => exact hw
  | skip => exact hw
  | lead => exact hw
  | depart => exact hw
  | recheck => exact hw
  | release => exact trivial
  | own => cases hw
  | expireFetch => exact hw
  | fetched => exact hw
  | unfetched => exact hw
  | _ => exact trivial

theorem CallMove.isOwn (h : CallMove cfg s i a st t st') (hs : st.IsOwn) : st'.IsOwn := by
  cases h with
  | @own a b t next => rcases next with b | e <;> exact trivial
  | _ => cases hs

theorem CallMove.isFor {r : Request} (h : CallMove cfg s i a st t st') (hs : st.Sole)
    (hr : st.IsFor r) : st'.IsFor r := by
  cases r with
  | compile units limits => exact h.isOwn hr
  | _ => exact h.wants hs hr

/-! ## What a call has found -/

def LookupEnd.found? : LookupEnd → Option Artifact
  | resolved r => r.artifact?
  | overflowed _ => none

def Answer.found? : Answer → Option Artifact
  | lookup e => e.found?
  | batch _ => none
  | stored a => a

def Stage.found? : Stage → Option Artifact
  | recording _ _ r => r.artifact?
  | releasing _ e => e.found?
  | landing _ e => e.found?
  | finished answer => answer.found?
  | _ => none

theorem read_snd (s : State) (cfg : Settings) (n : Name) : (s.read cfg n).2 = s.store.get? n := by
  unfold State.read
  split
  · rename_i hg
    exact hg.symm
  · rename_i hg
    exact hg.symm

theorem artifact?_ofOption (o : Option Artifact) : (Resolution.ofOption o).artifact? = o := by
  cases o <;> rfl

theorem found?_record (s : State) (n : Name) (r : Resolution) :
    (s.record n r).2.found? = r.artifact? := by
  unfold State.record
  split
  · split <;> rfl
  · rfl

theorem found?_afterBatch (n : Name) (g : Guard) (next : BatchStage ⊕ BatchEnd) :
    (afterBatch n g next).found? = none := by
  rcases next with b | e
  · rfl
  · cases e <;> rfl

/-- What a lookup has found it had before, or it finds it in the store or in the flight that it
follows. -/
theorem CallMove.found (h : CallMove cfg s i a st t st') (hw : st.Wants n)
    (hx : st'.found? = some x) :
    st.found? = some x ∨ s.store.get? n = some x ∨
      ∃ f timeout deadline, st = .following n f timeout deadline ∧
        s.resolving.flight? f = some (.landed (.found x)) := by
  -- an artifact comes from the store or from the flight, or was found before
  cases h with
  | @peek m =>
    obtain rfl : m = n := hw
    exact Or.inr (Or.inl ((read_snd _ _ _).symm.trans hx))
  | @hit m limits a hg =>
    obtain rfl : m = n := hw
    exact Or.inr (Or.inl (hg.trans hx))
  | @reread m =>
    obtain rfl : m = n := hw
    exact Or.inr (Or.inl ((read_snd _ _ _).symm.trans ((artifact?_ofOption _).symm.trans hx)))
  | @share m f timeout deadline r hf =>
    obtain rfl : m = n := hw
    refine Or.inr (Or.inr ⟨f, timeout, deadline, rfl, ?_⟩)
    cases r with
    | found y =>
      obtain rfl : y = x := Option.some.inj hx
      exact hf
    | absent => cases hx
    | failed e => cases hx
  | compile =>
    rw [found?_afterBatch] at hx
    cases hx
  | @recheck m g =>
    obtain rfl : m = n := hw
    exact Or.inr (Or.inl ((read_snd _ _ _).symm.trans ((artifact?_ofOption _).symm.trans hx)))
  | record => exact Or.inl ((found?_record _ _ _).symm.trans hx)
  | release => exact Or.inl hx
  | land => exact Or.inl hx
  | own => cases hw
  | _ => cases hx

section
variable {now : Moment} {store : Store} {ttl : Option Duration} {past : List (State × Action)}
  {u v : State} {r : Request}

theorem Run.isFor (h : Run cfg (.fresh now store ttl) past s) (hi : s.calls[i]? = some st) :
    ∃ r, Called past i r ∧ st.IsFor r :=
  Run.calls (P := fun _ r st => st.IsFor r) rfl isFor_stage
    (fun h _ hi _ hm hr => hm.isFor (h.soleCalls _ _ hi) hr) (fun _ hr => hr) h hi

theorem Stage.IsFor.of_attempt? (h : st.IsFor r) (ha : st.attempt? = some (n, f)) :
    r.wanted? = some n := by
  have hwants : ∀ {m}, st.Wants m → m = n := by
    intro m hm
    cases st with
    | releasing g e =>
      obtain ⟨k, hk, he⟩ := Option.map_eq_some_iff.mp ha
      rw [show g.names = [m] from hm] at hk
      obtain rfl := Option.some.inj hk
      exact (Prod.mk.inj he).1
    | departing => exact hm.symm.trans (Prod.mk.inj (Option.some.inj ha)).1
    | fetching => exact hm.symm.trans (Prod.mk.inj (Option.some.inj ha)).1
    | compiling => exact hm.symm.trans (Prod.mk.inj (Option.some.inj ha)).1
    | rechecking => exact hm.symm.trans (Prod.mk.inj (Option.some.inj ha)).1
    | recording => exact hm.symm.trans (Prod.mk.inj (Option.some.inj ha)).1
    | _ => cases ha
  cases r with
  | compile units limits =>
    cases st with
    | batch b => cases ha
    | finished answer => cases ha
    | _ => cases h
  | _ => exact congrArg some (hwants h)

theorem Run.wanted_of_leads (h : Run cfg (.fresh now store ttl) past s) (hv : v ∈ visited past s)
    (hl : v.Leads j n f) : ∃ r, Called past j r ∧ r.wanted? = some n := by
  obtain ⟨before, after, rfl, hb, -⟩ := h.upto_visited hv
  obtain ⟨st, hj, ha⟩ := view_eq_some.mp hl
  obtain ⟨r, hr, hs⟩ := hb.isFor hj
  exact ⟨r, hr.append after, hs.of_attempt? ha⟩

/-- The store holds what a lookup has found, under the name that the lookup was asked for. -/
theorem Run.found (h : Run cfg (.fresh now store ttl) past s) (hi : s.calls[i]? = some st) :
    ∃ r, Called past i r ∧
      ∀ n x, r.wanted? = some n → st.found? = some x → s.store.get? n = some x := by
  refine Run.calls (P := fun s r st => ∀ n x, r.wanted? = some n → st.found? = some x →
    s.store.get? n = some x) rfl ?_ ?_ ?_ h hi
  · intro s r n x hn hx
    cases r <;> cases hx
  · intro past s a u i st st' r h ih hi hr hm hst n x hn hx
    obtain ⟨r', hr', hs⟩ := h.isFor hi
    obtain rfl := h.called_unique hr hr'
    have hw : st.Wants n := by
      rw [Stage.IsFor, hn] at hs
      exact hs
    refine hm.extends n x ?_
    rcases hm.found hw hx with hx | hx | ⟨f, timeout, deadline, rfl, hf⟩
    · exact hst n x hn hx
    · exact hx
    · -- the leader was asked for the same name, and has answered
      obtain ⟨j, v, hv, hl⟩ := h.leader_of_follower (mem_visited.mpr (Or.inl rfl)) hi
      obtain ⟨r₁, hr₁, hn₁⟩ := h.wanted_of_leads hv hl
      obtain ⟨r₂, hr₂, hfound⟩ := ih ((h.landed_iff hv hl).mp hf)
      obtain rfl := h.called_unique hr₁ hr₂
      exact hfound n x hn₁ rfl
  · intro s a t st r hst hP n x hn hx
    exact hst.extends n x (hP n x hn hx)

theorem Stage.IsFor.wanted {answer : Answer} (h : (Stage.finished answer).IsFor r)
    (hx : answer.found? = some x) : ∃ n, r.wanted? = some n := by
  cases r with
  | compile units limits =>
    cases answer with
    | batch e => cases hx
    | lookup e => cases h
    | stored a => cases h
  | _ => exact ⟨_, rfl⟩

theorem Run.answered (h : Run cfg (.fresh now store ttl) past s) {answer : Answer}
    (hi : s.calls[i]? = some (.finished answer)) (hx : answer.found? = some x) :
    ∃ r, Called past i r ∧ r.wanted? = some x.name ∧ s.store.get? x.name = some x := by
  obtain ⟨r, hr, hfor⟩ := h.isFor hi
  obtain ⟨r', hr', hfound⟩ := h.found hi
  obtain rfl := h.called_unique hr hr'
  obtain ⟨n, hn⟩ := hfor.wanted hx
  have hget : s.store.get? n = some x := hfound n x hn hx
  have hname : x.name = n := Store.name_of_get? hget
  rw [hname]
  exact ⟨r, hr, hn, hget⟩

/-- What is stored at some moment of a run is stored for good under its own name. A call that answers
with an artifact was asked for the name of this, and the store holds it under that name at the time
and for good. So answers for one name are equal. -/
theorem found_agree (h : Run cfg (.fresh now store ttl) past s) :
    (∀ u ∈ visited past s, ∀ n x, u.store.get? n = some x → x.name = n ∧ s.store.get? n = some x) ∧
    (∀ u ∈ visited past s, ∀ (i : Nat) answer x, u.calls[i]? = some (.finished answer) →
      answer.found? = some x →
      (∃ r, Called past i r ∧ r.wanted? = some x.name) ∧
        (∀ r, Called past i r → r.wanted? = some x.name) ∧
        u.store.get? x.name = some x ∧ s.store.get? x.name = some x) ∧
    (∀ u ∈ visited past s, ∀ v ∈ visited past s, ∀ (i j : Nat) answer answer' x y,
      u.calls[i]? = some (.finished answer) → answer.found? = some x →
      v.calls[j]? = some (.finished answer') → answer'.found? = some y → x.name = y.name → x = y) := by
  have hstored : ∀ u ∈ visited past s, ∀ n x, u.store.get? n = some x → s.store.get? n = some x :=
    fun u hu n x hx => h.extends hu n x hx
  have hanswer : ∀ u ∈ visited past s, ∀ (i : Nat) answer x,
      u.calls[i]? = some (.finished answer) → answer.found? = some x →
      ∃ r, Called past i r ∧ r.wanted? = some x.name ∧ u.store.get? x.name = some x := by
    intro u hu i answer x hi hx
    obtain ⟨before, after, rfl, hb, -⟩ := h.upto_visited hu
    obtain ⟨r, hr, hn, hget⟩ := hb.answered hi hx
    exact ⟨r, hr.append after, hn, hget⟩
  refine ⟨?_, ?_, ?_⟩
  · intro u hu n x hx
    exact ⟨Store.name_of_get? hx, hstored u hu n x hx⟩
  · intro u hu i answer x hi hx
    obtain ⟨r, hr, hn, hget⟩ := hanswer u hu i answer x hi hx
    refine ⟨⟨r, hr, hn⟩, fun r' hr' => ?_, hget, hstored u hu _ x hget⟩
    rw [h.called_unique hr' hr]
    exact hn
  · intro u hu v hv i j answer answer' x y hi hx hj hy hname
    obtain ⟨-, -, -, hgetx⟩ := hanswer u hu i answer x hi hx
    obtain ⟨-, -, -, hgety⟩ := hanswer v hv j answer' y hj hy
    -- both are what the store holds under one name in the end
    have hsx := hstored u hu _ x hgetx
    have hsy := hstored v hv _ y hgety
    rw [hname, hsy] at hsx
    exact (Option.some.inj hsx).symm

end

def made : Artifact := .plain Sample.x ⟨#[1]⟩

def other : Artifact := .plain Sample.x ⟨#[2]⟩

/-- Two lookups of a name share a flight, in which the compiler makes it twice. A caller tries to put
something else in its place, and a third lookup comes later. -/
def sharedAndRecalled : List Action :=
  List.flatten
    [[.call (.resolve Sample.x .unbounded), .call (.resolve Sample.x .unbounded)],
      List.replicate 5 (.advance 0), List.replicate 4 (.advance 1),
      [.fetched 0 (.unit (Sample.unit Sample.x))], List.replicate 4 (.advance 0),
      [.prepare 0, .built 0 (.output ⟨[made, made], []⟩)], List.replicate 8 (.advance 0),
      [.put other, .advance 1, .call (.recall Sample.x), .advance 2]]

theorem found_agree_recalled :
    ∃ past s, Run Sample.settings (.fresh 0 .empty none) past s ∧
      s.calls[0]? = some (resolved (.found made)) ∧
      s.calls[1]? = some (resolved (.found made)) ∧
      s.calls[2]? = some (.finished (.stored (some made))) ∧
      (∃ p ∈ past, p.2 = .put other) ∧ s.store.get? Sample.x = some made ∧
      ∀ (i : Nat) y, s.calls[i]? = some (resolved (.found y)) → y.name = Sample.x → y = made := by
  have hperform : ((State.fresh 0 .empty none).perform Sample.settings sharedAndRecalled).any fun r =>
      (r.2.calls[0]? = some (resolved (.found made)) ∧
        r.2.calls[1]? = some (resolved (.found made)) ∧
        r.2.calls[2]? = some (.finished (.stored (some made)))) ∧
      ∃ p ∈ r.1, p.2 = .put other := by
    decide +kernel
  obtain ⟨past, s, hrun, ⟨hleader, hfollower, hlater⟩, hput⟩ := Run.of_any hperform
  have hs : s ∈ visited past s := mem_visited.mpr (Or.inl rfl)
  obtain ⟨-, hanswers, hagree⟩ := found_agree hrun
  obtain ⟨-, -, hget, -⟩ := hanswers s hs 2 _ made hlater rfl
  refine ⟨past, s, hrun, hleader, hfollower, hlater, hput, hget, fun i y hi hy => ?_⟩
  exact hagree s hs s hs i 0 _ _ y made hi rfl hleader rfl hy

end OnDemand.Engine
