import Mathlib.Data.List.Induction
import OnDemand.Flight.Clients
import OnDemand.Proofs.Flight

/-!
# What the clients of a table of flights can rely on

In every history the table lists exactly what the live guards list (`Consistent`). A wait that is over
has been told how its flight ended, unless it timed out or had an end that the clock cannot show, and
a wait for a flight that has ended can be over at once (`waits_learn_iff`).
-/

namespace OnDemand

open FlightTable

variable {α : Type}

/-! ## Claims -/

namespace FlightTable

section
variable {t : FlightTable α} {hold : Nat → Option Guard} {i : Nat} {c : Claims}

theorem flight_claimName (t : FlightTable α) (done : Bool) (c : Claims) (n : Name) :
    (t.claimName done c n).2.flight = c.flight := by
  unfold claimName
  split
  · rfl
  · split <;> rfl

theorem flights_claimName (t : FlightTable α) (done : Bool) (c : Claims) (n : Name) :
    (t.claimName done c n).1.flights = t.flights := by
  unfold claimName
  split
  · rfl
  · split <;> rfl

theorem flight_claimNames (done : Name → Bool) : ∀ (ns : List Name) (t : FlightTable α) (c : Claims),
    (claimNames done t c ns).2.flight = c.flight
  | [], _, _ => rfl
  | n :: ns, t, c => by
    rw [claimNames, flight_claimNames done ns, flight_claimName]

theorem flights_claimNames (done : Name → Bool) : ∀ (ns : List Name) (t : FlightTable α) (c : Claims),
    (claimNames done t c ns).1.flights = t.flights
  | [], _, _ => rfl
  | n :: ns, t, c => by
    rw [claimNames, flights_claimNames done ns, flights_claimName]

theorem led_claimName (t : FlightTable α) (done : Bool) (c : Claims) (n : Name) :
    (t.claimName done c n).2.led = c.led ∨ (t.claimName done c n).2.led = c.led ++ [n] := by
  unfold claimName
  split
  · exact Or.inl rfl
  · split
    · exact Or.inl rfl
    · exact Or.inr rfl

def listed (t : FlightTable α) : List Name :=
  t.claimed.map (·.1)

theorem nodup_claimName (h : t.listed.Nodup) (done : Bool) (n : Name) :
    (t.claimName done c n).1.listed.Nodup := by
  unfold claimName
  split
  · exact h
  · rename_i hf
    split
    · exact h
    · have hfree : n ∉ t.listed := by
        intro hn
        obtain ⟨⟨m, f⟩, hm, rfl⟩ := List.mem_map.mp hn
        exact not_mem_of_flightOf? hf f hm
      rw [listed, List.map_append, List.nodup_append]
      refine ⟨h, by simp, fun m hm m' hm' he => ?_⟩
      obtain rfl : m' = n := by simpa using hm'
      exact hfree (he ▸ hm)

theorem nodup_claimNames (done : Name → Bool) : ∀ (ns : List Name) {t : FlightTable α} {c : Claims},
    t.listed.Nodup → (claimNames done t c ns).1.listed.Nodup
  | [], _, _, h => h
  | n :: ns, _, _, h => nodup_claimNames done ns (nodup_claimName h (done n) n)

theorem led_claimNames (done : Name → Bool) : ∀ (ns : List Name) (t : FlightTable α) (c : Claims),
    ∃ l, l.Sublist ns ∧ (claimNames done t c ns).2.led = c.led ++ l
  | [], _, c => ⟨[], List.Sublist.refl _, by simp [claimNames]⟩
  | n :: ns, t, c => by
    obtain ⟨l, hl, he⟩ := led_claimNames done ns (t.claimName (done n) c n).1
      (t.claimName (done n) c n).2
    rcases led_claimName t (done n) c n with hn | hn
    · exact ⟨l, hl.cons n, by rw [claimNames, he, hn]⟩
    · exact ⟨n :: l, hl.cons_cons n, by rw [claimNames, he, hn]; simp⟩

theorem tableMove_claimName (t : FlightTable α) (done : Name → Bool) (c : Claims) (n : Name) :
    TableMove done t (some ⟨c.flight, c.led⟩) (t.claimName (done n) c n).1
      (some ⟨(t.claimName (done n) c n).2.flight, (t.claimName (done n) c n).2.led⟩) := by
  unfold claimName
  cases hf : t.flightOf? n with
  | some f => exact .rest _ _
  | none =>
    cases hd : done n with
    | true => exact .rest _ _
    | false => exact .claim _ _ _ hf hd

theorem Held.claimNames (done : Name → Bool) : ∀ (ns : List Name) {t : FlightTable α} {c : Claims}
    {hold : Nat → Option Guard}, t.Held hold → hold i = some ⟨c.flight, c.led⟩ →
    (claimNames done t c ns).1.Held (Function.update hold i
      (some ⟨(FlightTable.claimNames done t c ns).2.flight, (FlightTable.claimNames done t c ns).2.led⟩))
  | [], t, c, hold, h, hi => by
    rw [FlightTable.claimNames, ← hi, Function.update_eq_self]
    exact h
  | n :: ns, t, c, hold, h, hi => by
    have hn := h.move hi (tableMove_claimName t done c n)
    have hns := Held.claimNames done ns hn (Function.update_self _ _ _)
    rw [Function.update_idem] at hns
    exact hns

theorem Held.claimBatch (h : t.Held hold) (hi : hold i = none) (done : Name → Bool)
    (ns : List Name) :
    (t.claimBatch done ns).1.Held
      (Function.update hold i (t.claimBatch done ns).2.guard?) := by
  have hbegin := h.move hi (TableMove.begin t : TableMove done t _ _ _)
  have hall := Held.claimNames (c := .start t.begin.1) done (Name.distinct ns) hbegin
    (Function.update_self _ _ _)
  rw [Function.update_idem] at hall
  by_cases hled : (t.claimBatch done ns).2.led = []
  · have hleave := hall.move (Function.update_self _ _ _)
      (TableMove.leave _ _ hled : TableMove done _ _ _ _)
    rw [Function.update_idem] at hleave
    rw [Claims.guard?, hled]
    exact hleave
  · rw [Claims.guard?, if_neg (by simpa using hled)]
    exact hall

end

theorem nodup_claimBatch (t : FlightTable α) (done : Name → Bool) (ns : List Name) :
    (t.claimBatch done ns).2.led.Nodup := by
  obtain ⟨l, hl, he⟩ := led_claimNames done (Name.distinct ns) t.begin.2 (.start t.begin.1)
  rw [claimBatch, he]
  exact hl.nodup (Name.nodup_distinct ns)

theorem flight_claimBatch (t : FlightTable α) (done : Name → Bool) (ns : List Name) :
    (t.claimBatch done ns).2.flight = t.flights.length :=
  flight_claimNames done (Name.distinct ns) t.begin.2 (.start t.begin.1)

theorem flights_claimBatch (t : FlightTable α) (done : Name → Bool) (ns : List Name) :
    (t.claimBatch done ns).1.flights = t.flights ++ [.pending] :=
  flights_claimNames done (Name.distinct ns) t.begin.2 (.start t.begin.1)

end FlightTable

namespace Clients

/-! ## The moves -/

inductive Move (s : Clients α) : Op α → Clients α → Prop where
  | claim {op} (names : List Name) (done : Name → Bool) : op.ending? = none →
      Move s op (s.claim names done)
  | leave {op c o claims g} : op.ending? = some (c, o) → s.claimants[c]? = some ⟨claims, .live⟩ →
      claims.guard? = some g →
      Move s op
        { s with table := s.table.release g, claimants := s.claimants.set c ⟨claims, .leaving o⟩ }
  | land {op c o claims} : op.ending? = none → s.claimants[c]? = some ⟨claims, .leaving o⟩ →
      Move s op
        { s with
          table := s.table.settle claims.flight o
          claimants := s.claimants.set c ⟨claims, .ended o⟩ }
  | wait {op} (f : Nat) (timeout : Option Duration) : op.ending? = none →
      Move s op (s.beginWait f timeout)
  | wake {op w e} (i : Nat) : op.ending? = none → s.waits[i]? = some w → w.ending = none →
      s.endOf? w = some e →
      Move s op { s with waits := s.waits.set i { w with ending := some e } }
  | elapse {op} (nanos : Nat) : op.ending? = none → Move s op { s with now := s.now + nanos }

section
variable {s t : Clients α} {op : Op α} {ops : List (Op α)} {c : Nat} {o : Flight α}

theorem move_of_leave (ho : op.ending? = some (c, o)) (h : s.leave c o = some t) : Move s op t := by
  unfold leave at h
  split at h
  · rename_i claims hc
    obtain ⟨g, hg, rfl⟩ := Option.map_eq_some_iff.mp h
    exact .leave ho hc hg
  · cases h

theorem move_of_act (h : s.act op = some t) : Move s op t := by
  cases op with
  | claim n done =>
    obtain rfl := Option.some.inj h
    exact .claim _ _ rfl
  | claimBatch names done =>
    obtain rfl := Option.some.inj h
    exact .claim _ _ rfl
  | complete c value => exact move_of_leave rfl h
  | drop c => exact move_of_leave rfl h
  | land c =>
    simp only [act, Clients.land] at h
    split at h
    · rename_i claims o hc
      obtain rfl := Option.some.inj h
      exact .land rfl hc
    · cases h
  | wait c n timeout =>
    obtain ⟨f, -, rfl⟩ := Option.map_eq_some_iff.mp h
    exact .wait f timeout rfl
  | wake i =>
    obtain ⟨w, hw, hmap⟩ := Option.bind_eq_some_iff.mp h
    obtain ⟨e, he, rfl⟩ := Option.map_eq_some_iff.mp hmap
    obtain ⟨hw, hgoing⟩ := Option.filter_eq_some_iff.mp hw
    exact .wake i rfl hw (Option.isNone_iff_eq_none.mp hgoing) he
  | elapse nanos =>
    obtain rfl := Option.some.inj h
    exact .elapse nanos rfl

theorem step_eq_act (h : s.broken = none) : s.step op = s.act op := by
  simp [step, h]

theorem move_of_step (h : s.step op = some t) : Move s op t := by
  unfold step at h
  split at h
  · cases h
  · exact move_of_act h

theorem perform_invariant {P : List (Op α) → Clients α → Prop} {s₀ : Clients α} (h₀ : P [] s₀)
    (hP : ∀ {ops s op t}, P ops s → Move s op t → P (ops ++ [op]) t)
    (h : s₀.perform ops = some s) : P ops s := by
  induction ops using List.reverseRecOn generalizing s with
  | nil =>
    obtain rfl := Option.some.inj h
    exact h₀
  | append_singleton ops op ih =>
    rw [perform, List.foldlM_append] at h
    obtain ⟨u, hu, hs⟩ := Option.bind_eq_some_iff.mp h
    have hstep : u.step op = some s := by simpa using hs
    exact hP (ih hu) (move_of_step hstep)

/-! ## Beginning a wait -/

section
variable (f : Nat) (timeout : Option Duration)

theorem table_beginWait : (s.beginWait f timeout).table = s.table := by
  unfold beginWait
  dsimp only
  split <;> rfl

theorem claimants_beginWait : (s.beginWait f timeout).claimants = s.claimants := by
  unfold beginWait
  dsimp only
  split <;> rfl

theorem now_beginWait : (s.beginWait f timeout).now = s.now := by
  unfold beginWait
  dsimp only
  split <;> rfl

theorem beginWait_cases : ∃ w, (s.beginWait f timeout).waits = s.waits ++ [w] ∧
    ((w.Endless ∧ w.ending = some (.overflowed .deadline) ∧
      (s.beginWait f timeout).broken = some .deadline) ∨
    (¬ w.Endless ∧ w.ending = none ∧ (s.beginWait f timeout).broken = s.broken)) := by
  unfold beginWait
  dsimp only
  split
  · rename_i h
    exact ⟨_, rfl, Or.inl ⟨h, rfl, rfl⟩⟩
  · rename_i h
    exact ⟨_, rfl, Or.inr ⟨h, rfl, rfl⟩⟩

end

/-! ## Flights end once -/

theorem Op.ne_pending (h : op.ending? = some (c, o)) : o ≠ .pending := by
  cases op with
  | complete c value =>
    obtain ⟨-, rfl⟩ := Prod.mk.inj (Option.some.inj h)
    simp
  | drop c =>
    obtain ⟨-, rfl⟩ := Prod.mk.inj (Option.some.inj h)
    simp
  | _ => cases h

theorem Move.flight?_ended {f : Nat} (h : Move s op t) (hf : s.table.flight? f = some o)
    (ho : o ≠ .pending) : t.table.flight? f = some o := by
  cases h with
  | claim names done =>
    show (s.table.claimBatch done names).1.flights[f]? = _
    rw [flights_claimBatch, List.getElem?_append_left (List.getElem?_eq_some_iff.mp hf).1]
    exact hf
  | @land c o' claims =>
    by_cases hc : f = claims.flight
    · subst hc
      rw [settle_ended o' (by rw [hf]; simpa using ho)]
      exact hf
    · rw [← hf]
      exact flight?_settle_ne o' hc
  | wait =>
    rw [table_beginWait]
    exact hf
  | _ => exact hf

theorem perform_flight?_ended {f : Nat} (h : s.perform ops = some t)
    (hf : s.table.flight? f = some o) (ho : o ≠ .pending) : t.table.flight? f = some o :=
  perform_invariant (P := fun _ t => t.table.flight? f = some o) hf
    (fun hs hm => hm.flight?_ended hs ho) h

/-! ## The table and its clients -/

/-- The guard of a claimant has begun to end in some way. -/
def EndsWith (ops : List (Op α)) (c : Nat) (o : Flight α) : Prop :=
  ∃ op ∈ ops, op.ending? = some (c, o)

theorem endsWith_step : EndsWith (ops ++ [op]) c o ↔ EndsWith ops c o ∨ op.ending? = some (c, o) := by
  simp [EndsWith, or_and_right, exists_or]

/-- The table, the claimants and the history agree. Each claim has begun a flight of its own, so
both have the same number. -/
structure Accounted (ops : List (Op α)) (s : Clients α) : Prop where
  held : s.table.Held s.held?
  listed : s.table.listed.Nodup
  length : s.table.flights.length = s.claimants.length
  claim : ∀ {c k}, s.claimants[c]? = some k →
    k.claims.flight = c ∧ k.claims.led.Nodup ∧ s.table.flight? c = some k.tenure.flight
  endsWith_iff : ∀ {c o}, EndsWith ops c o ↔
    ∃ k, s.claimants[c]? = some k ∧ k.tenure.outcome? = some o

theorem bind_getElem?_append {β γ : Type} (l : List β) (b : β) (f : β → Option γ) :
    (fun i => (l ++ [b])[i]?.bind f) = Function.update (fun i => l[i]?.bind f) l.length (f b) := by
  funext i
  rcases Nat.lt_trichotomy i l.length with hi | rfl | hi
  · rw [Function.update_of_ne (by omega), List.getElem?_append_left hi]
  · simp
  · rw [Function.update_of_ne (by omega), List.getElem?_eq_none (by simp; omega),
      List.getElem?_eq_none (by omega)]

theorem bind_getElem?_set {β γ : Type} {l : List β} {i : Nat} {b : β} (h : l[i]? = some b) (b' : β)
    (f : β → Option γ) :
    (fun j => (l.set i b')[j]?.bind f) = Function.update (fun j => l[j]?.bind f) i (f b') := by
  obtain ⟨hlt, -⟩ := List.getElem?_eq_some_iff.mp h
  funext j
  by_cases hj : j = i
  · subst hj
    simp [hlt]
  · rw [Function.update_of_ne hj, List.getElem?_set_ne (Ne.symm hj)]

variable {k k' : Claimant α}

theorem held?_set (hk : s.claimants[c]? = some k) (ht : t.claimants = s.claimants.set c k') :
    t.held? = Function.update s.held? c k'.held? := by
  unfold held?
  rw [ht]
  exact bind_getElem?_set hk k' Claimant.held?

theorem live?_set (hk : s.claimants[c]? = some k) (ht : t.claimants = s.claimants.set c k') :
    t.live? = Function.update s.live? c k'.live? := by
  unfold live?
  rw [ht]
  exact bind_getElem?_set hk k' Claimant.live?

theorem claimant_claim {names : List Name} {done : Name → Bool} :
    (s.claim names done).claimants[c]? = some k ↔ s.claimants[c]? = some k ∨
      (c = s.claimants.length ∧ k = ⟨(s.table.claimBatch done names).2, .live⟩) := by
  have happ : (s.claim names done).claimants =
      s.claimants ++ [⟨(s.table.claimBatch done names).2, .live⟩] := rfl
  rw [happ]
  rcases Nat.lt_trichotomy c s.claimants.length with hc | rfl | hc
  · rw [List.getElem?_append_left hc]
    simp [Nat.ne_of_lt hc]
  · simp [eq_comm]
  · rw [List.getElem?_eq_none (by simp; omega), List.getElem?_eq_none (by omega)]
    simp [Nat.ne_of_gt hc]

theorem claimant_set {i : Nat} {l : List (Claimant α)} (h : l[i]? = some k) (k' : Claimant α)
    {x : Claimant α} :
    (l.set i k')[c]? = some x ↔ (c = i ∧ x = k') ∨ (c ≠ i ∧ l[c]? = some x) := by
  obtain ⟨hlt, -⟩ := List.getElem?_eq_some_iff.mp h
  by_cases hc : c = i
  · subst hc
    simp [hlt, eq_comm]
  · simp [List.getElem?_set_ne (Ne.symm hc), hc]

theorem Accounted.claimed (h : Accounted ops s) (ho : op.ending? = none) (names : List Name)
    (done : Name → Bool) : Accounted (ops ++ [op]) (s.claim names done) := by
  have hnew : s.held? s.claimants.length = none := by
    rw [held?, List.getElem?_eq_none (Nat.le_refl _), Option.bind_none]
  have hflights : (s.claim names done).table.flights = s.table.flights ++ [.pending] :=
    flights_claimBatch s.table done names
  -- one claimant more, with a flight of its own that is pending
  constructor
  · rw [show (s.claim names done).held? = _ from bind_getElem?_append _ _ _]
    exact h.held.claimBatch hnew done names
  · exact nodup_claimNames done _ h.listed
  · rw [hflights, List.length_append, h.length]
    show s.claimants.length + 1 = (s.claimants ++ [_]).length
    simp
  · intro c k hc
    rw [flight?, hflights]
    rcases claimant_claim.mp hc with hc | ⟨rfl, rfl⟩
    · rw [List.getElem?_append_left (h.length ▸ (List.getElem?_eq_some_iff.mp hc).1)]
      exact h.claim hc
    · refine ⟨?_, nodup_claimBatch _ _ _, ?_⟩
      · rw [flight_claimBatch, h.length]
      · rw [← h.length]
        simp [Tenure.flight]
  · intro c o
    rw [endsWith_step, ho, h.endsWith_iff]
    simp only [claimant_claim]
    constructor
    · rintro (⟨k, hc, hk⟩ | he)
      · exact ⟨k, Or.inl hc, hk⟩
      · cases he
    · rintro ⟨k, hc | ⟨rfl, rfl⟩, hk⟩
      · exact Or.inl ⟨k, hc, hk⟩
      · cases hk

theorem Accounted.left {claims : Claims} {g : Guard} (h : Accounted ops s)
    (ho : op.ending? = some (c, o)) (hc : s.claimants[c]? = some ⟨claims, .live⟩)
    (hg : claims.guard? = some g) :
    Accounted (ops ++ [op])
      { s with table := s.table.release g, claimants := s.claimants.set c ⟨claims, .leaving o⟩ } := by
  obtain ⟨hflight, hled, hpending⟩ := h.claim hc
  have hheld : s.held? c = some g := by
    rw [held?, hc, Option.bind_some]
    exact hg
  have hgf : g.flight = claims.flight := by
    unfold Claims.guard? at hg
    split at hg
    · cases hg
    · rw [← Option.some.inj hg]
  -- the names are out of the table, the flight has not ended yet
  constructor
  · have hmove := h.held.move hheld
      (TableMove.release s.table g : TableMove (fun _ => false) _ _ _ _)
    rw [hgf] at hmove
    rw [held?_set hc rfl]
    exact hmove
  · exact h.listed.sublist (List.filter_sublist.map _)
  · rw [List.length_set]
    exact h.length
  · intro i k hi
    rcases (claimant_set hc _).mp hi with ⟨rfl, rfl⟩ | ⟨-, hi⟩
    · exact ⟨hflight, hled, hpending⟩
    · exact h.claim hi
  · intro i o'
    rw [endsWith_step, ho, h.endsWith_iff]
    simp only [claimant_set hc]
    constructor
    · rintro (⟨k, hi, hk⟩ | he)
      · refine ⟨k, Or.inr ⟨?_, hi⟩, hk⟩
        rintro rfl
        obtain rfl := Option.some.inj (hi.symm.trans hc)
        cases hk
      · obtain ⟨rfl, rfl⟩ := Prod.mk.inj (Option.some.inj he)
        exact ⟨_, Or.inl ⟨rfl, rfl⟩, rfl⟩
    · rintro ⟨k, ⟨rfl, rfl⟩ | ⟨-, hi⟩, hk⟩
      · exact Or.inr (congrArg (fun o => some (i, o)) (Option.some.inj hk))
      · exact Or.inl ⟨k, hi, hk⟩

theorem Accounted.landed {claims : Claims} (h : Accounted ops s) (ho : op.ending? = none)
    (hc : s.claimants[c]? = some ⟨claims, .leaving o⟩) :
    Accounted (ops ++ [op])
      { s with
        table := s.table.settle claims.flight o
        claimants := s.claimants.set c ⟨claims, .ended o⟩ } := by
  obtain ⟨hflight, hled, hpending⟩ := h.claim hc
  have hends : EndsWith ops c o := h.endsWith_iff.mpr ⟨_, hc, rfl⟩
  have hne : o ≠ .pending := by
    obtain ⟨op, -, hop⟩ := hends
    exact Op.ne_pending hop
  have hheld : s.held? c = some ⟨claims.flight, []⟩ := by
    rw [held?, hc]
    rfl
  -- the guard has no names any more, so only its flight changes
  constructor
  · rw [held?_set hc rfl]
    have hmove : TableMove (fun _ => false) s.table (some ⟨claims.flight, []⟩) _ none :=
      .settle s.table ⟨claims.flight, []⟩ o rfl hne
    exact h.held.move hheld hmove
  · rw [FlightTable.listed, claimed_settle]
    exact h.listed
  · rw [List.length_set, ← h.length]
    unfold settle
    split <;> simp
  · intro i k hi
    rcases (claimant_set hc _).mp hi with ⟨rfl, rfl⟩ | ⟨hne, hi⟩
    · refine ⟨hflight, hled, ?_⟩
      subst hflight
      exact flight?_settle_self o hpending
    · rw [flight?_settle_ne o (hflight ▸ hne)]
      exact h.claim hi
  · intro i o'
    rw [endsWith_step, ho, h.endsWith_iff]
    simp only [claimant_set hc]
    constructor
    · rintro (⟨k, hi, hk⟩ | he)
      · by_cases hic : i = c
        · subst hic
          obtain rfl := Option.some.inj (hi.symm.trans hc)
          exact ⟨_, Or.inl ⟨rfl, rfl⟩, hk⟩
        · exact ⟨k, Or.inr ⟨hic, hi⟩, hk⟩
      · cases he
    · rintro ⟨k, ⟨rfl, rfl⟩ | ⟨-, hi⟩, hk⟩
      · exact Or.inl ⟨_, hc, hk⟩
      · exact Or.inl ⟨k, hi, hk⟩

theorem Accounted.rest (h : Accounted ops s) (ho : op.ending? = none) (ht : t.table = s.table)
    (hc : t.claimants = s.claimants) : Accounted (ops ++ [op]) t := by
  constructor
  · rw [ht, show t.held? = s.held? by funext c; rw [held?, held?, hc]]
    exact h.held
  · rw [ht]
    exact h.listed
  · rw [ht, hc]
    exact h.length
  · rw [ht, hc]
    exact h.claim
  · intro c o
    rw [endsWith_step, ho, h.endsWith_iff, hc]
    simp

theorem accounted_fresh (now : Moment) : Accounted [] (fresh now : Clients α) := by
  constructor
  · exact held_empty
  · exact List.nodup_nil
  · rfl
  · intro c k hc
    cases hc
  · intro c o
    simp [EndsWith, fresh]

theorem Accounted.move (h : Accounted ops s) (hm : Move s op t) : Accounted (ops ++ [op]) t := by
  cases hm with
  | claim names done ho => exact h.claimed ho names done
  | leave ho hc hg => exact h.left ho hc hg
  | land ho hc => exact h.landed ho hc
  | wait f timeout ho => exact h.rest ho (table_beginWait f timeout) (claimants_beginWait f timeout)
  | wake i ho => exact h.rest ho rfl rfl
  | elapse nanos ho => exact h.rest ho rfl rfl

theorem accounted {now : Moment} (h : (fresh now).perform ops = some s) : Accounted ops s :=
  perform_invariant (accounted_fresh now) Accounted.move h

/-! ## The table lists what the live guards list -/

/-- The table is a map from the names of the live guards to their flights, which are pending. -/
structure Consistent (s : Clients α) : Prop where
  listed : s.table.listed.Nodup
  flightOf?_iff : ∀ {n f}, s.table.flightOf? n = some f ↔ ∃ c, Has (s.live? c) n f
  once : ∀ {c c' n f f'}, Has (s.live? c) n f → Has (s.live? c') n f' → c = c'
  names : ∀ {c g}, s.live? c = some g → g.names ≠ [] ∧ g.names.Nodup
  disjoint : ∀ {c c' g g'}, s.live? c = some g → s.live? c' = some g' → c ≠ c' →
    g.names.Disjoint g'.names
  pending : ∀ {n f}, s.table.flightOf? n = some f → s.table.flight? f = some .pending
  empty : (∀ c, s.live? c = none) → s.table.listed = []

theorem live?_eq_some {g : Guard} (h : s.live? c = some g) :
    ∃ claims, s.claimants[c]? = some ⟨claims, .live⟩ ∧ claims.guard? = some g := by
  obtain ⟨⟨claims, tenure⟩, hc, hk⟩ := Option.bind_eq_some_iff.mp h
  cases tenure with
  | live => exact ⟨claims, hc, hk⟩
  | leaving o => cases hk
  | ended o => cases hk

theorem held?_of_live? {g : Guard} (h : s.live? c = some g) : s.held? c = some g := by
  obtain ⟨claims, hc, hg⟩ := live?_eq_some h
  rw [held?, hc]
  exact hg

theorem has_held?_iff {n : Name} {f : Nat} : Has (s.held? c) n f ↔ Has (s.live? c) n f := by
  rw [held?, live?]
  cases s.claimants[c]? with
  | none => exact Iff.rfl
  | some k =>
    obtain ⟨claims, tenure⟩ := k
    cases tenure with
    | live => exact Iff.rfl
    | leaving o => simp [Claimant.held?, Claimant.live?, Has]
    | ended o => exact Iff.rfl

theorem mem_claimed_iff (h : s.table.Held s.held?) {n : Name} {f : Nat} :
    (n, f) ∈ s.table.claimed ↔ ∃ c, Has (s.live? c) n f := by
  simp only [h.claimed_iff, has_held?_iff]

theorem Accounted.consistent (h : Accounted ops s) : s.Consistent := by
  have honce : ∀ {c c' n f f'}, Has (s.live? c) n f → Has (s.live? c') n f' → c = c' :=
    fun hc hc' => h.held.once (has_held?_iff.mpr hc) (has_held?_iff.mpr hc')
  -- one guard at most has a name, so the flight that is found is its own
  have hflight : ∀ {n f}, s.table.flightOf? n = some f ↔ ∃ c, Has (s.live? c) n f := by
    intro n f
    constructor
    · intro hf
      exact (mem_claimed_iff h.held).mp (mem_of_flightOf? hf)
    · rintro ⟨c, hc⟩
      cases hf : s.table.flightOf? n with
      | none => exact absurd ((mem_claimed_iff h.held).mpr ⟨c, hc⟩) (not_mem_of_flightOf? hf f)
      | some f' =>
        obtain ⟨c', hc'⟩ := (mem_claimed_iff h.held).mp (mem_of_flightOf? hf)
        obtain rfl := honce hc hc'
        obtain ⟨g, hg, rfl, -⟩ := hc
        obtain ⟨g', hg', rfl, -⟩ := hc'
        obtain rfl := Option.some.inj (hg.symm.trans hg')
        rfl
  refine ⟨h.listed, hflight, honce, ?_, ?_, ?_, ?_⟩
  · intro c g hg
    obtain ⟨claims, hc, hcg⟩ := live?_eq_some hg
    unfold Claims.guard? at hcg
    split at hcg
    · cases hcg
    · rename_i hled
      obtain rfl := Option.some.inj hcg
      exact ⟨by simpa using hled, (h.claim hc).2.1⟩
  · intro c c' g g' hg hg' hne n hn hn'
    exact hne (honce ⟨g, hg, rfl, hn⟩ ⟨g', hg', rfl, hn'⟩)
  · intro n f hf
    obtain ⟨c, g, hg, rfl, -⟩ := hflight.mp hf
    exact h.held.pending (held?_of_live? hg)
  · intro hnone
    rw [FlightTable.listed, List.map_eq_nil_iff, List.eq_nil_iff_forall_not_mem]
    rintro ⟨n, f⟩ hm
    obtain ⟨c, hc⟩ := (mem_claimed_iff h.held).mp hm
    rw [hnone c] at hc
    exact not_has_none hc

theorem Accounted.ending {g : Guard} (h : Accounted ops s) (hbroken : s.broken = none)
    (hg : s.live? c = some g) (ho : op.ending? = some (c, o)) :
    ∃ t, s.step op = some t ∧ t.live? = Function.update s.live? c none ∧
      ∀ n, t.table.flightOf? n = if n ∈ g.names then none else s.table.flightOf? n := by
  obtain ⟨claims, hc, hcg⟩ := live?_eq_some hg
  have hleave : s.leave c o = some
      { s with table := s.table.release g, claimants := s.claimants.set c ⟨claims, .leaving o⟩ } := by
    simp only [leave, hc, hcg, Option.map_some]
  have hstep : s.step op = s.leave c o := by
    rw [step_eq_act hbroken]
    cases op with
    | complete c' value =>
      obtain ⟨rfl, rfl⟩ := Prod.mk.inj (Option.some.inj ho)
      rfl
    | drop c' =>
      obtain ⟨rfl, rfl⟩ := Prod.mk.inj (Option.some.inj ho)
      rfl
    | _ => cases ho
  generalize hu : Clients.mk _ _ _ _ _ = u at hleave
  have hclaimants : u.claimants = s.claimants.set c ⟨claims, .leaving o⟩ := by rw [← hu]
  have hlive : u.live? = Function.update s.live? c none := live?_set hc hclaimants
  refine ⟨u, hstep.trans hleave, hlive, fun n => ?_⟩
  -- the table agrees with the guards before and after
  have hs := h.consistent
  have hafter := (h.move (move_of_step (hstep.trans hleave))).consistent
  apply Option.ext
  intro f
  rw [hafter.flightOf?_iff, hlive]
  by_cases hn : n ∈ g.names
  · rw [if_pos hn]
    constructor
    · rintro ⟨i, hi⟩
      by_cases hic : i = c
      · rw [hic, Function.update_self] at hi
        exact absurd hi not_has_none
      · rw [Function.update_of_ne hic] at hi
        exact absurd (hs.once hi ⟨g, hg, rfl, hn⟩) hic
    · intro hf
      cases hf
  · rw [if_neg hn, hs.flightOf?_iff]
    constructor
    · rintro ⟨i, hi⟩
      by_cases hic : i = c
      · rw [hic, Function.update_self] at hi
        exact absurd hi not_has_none
      · rw [Function.update_of_ne hic] at hi
        exact ⟨i, hi⟩
    · rintro ⟨i, hi⟩
      refine ⟨i, ?_⟩
      rw [Function.update_of_ne]
      · exact hi
      · rintro rfl
        obtain ⟨g', hg', -, hn'⟩ := hi
        obtain rfl := Option.some.inj (hg'.symm.trans hg)
        exact hn hn'

/-! ## What waits are told -/

/-- How a wait has ended fits how its flight stands. -/
def Fits (s : Clients α) (w : Wait α) : Prop :=
  match w.ending with
  | none => ¬ w.Endless
  | some (.told o) => ¬ w.Endless ∧ o ≠ .pending ∧ s.table.flight? w.flight = some o
  | some .timedOut => ¬ w.Endless ∧ ∃ deadline, w.deadline? = some deadline ∧ deadline ≤ s.now
  | some (.overflowed _) => w.Endless

theorem fits_endOf? {w : Wait α} {e : WaitEnd α} (hend : ¬ w.Endless) (h : s.endOf? w = some e) :
    s.Fits { w with ending := some e } := by
  unfold endOf? at h
  split at h
  · cases h
  · obtain ⟨hover, he⟩ := Option.ite_none_right_eq_some.mp h
    obtain rfl := Option.some.inj he
    obtain ⟨deadline, hd, hle⟩ := (Option.any_eq_true _ _).mp hover
    exact ⟨hend, deadline, hd, by simpa using hle⟩
  · rename_i f hne hf
    obtain rfl := Option.some.inj h
    exact ⟨hend, fun hp => hne hp, hf⟩

theorem Fits.mono {w : Wait α} (h : s.Fits w) (hnow : s.now ≤ t.now)
    (hflight : ∀ {f o}, s.table.flight? f = some o → o ≠ .pending → t.table.flight? f = some o) :
    t.Fits w := by
  unfold Fits at h ⊢
  split at h
  · exact h
  · obtain ⟨hend, ho, hf⟩ := h
    exact ⟨hend, ho, hflight hf ho⟩
  · obtain ⟨hend, deadline, hd, hle⟩ := h
    exact ⟨hend, deadline, hd, Nat.le_trans hle hnow⟩
  · exact h

theorem Move.fits (h : Move s op t) (hs : ∀ w ∈ s.waits, s.Fits w) : ∀ w ∈ t.waits, t.Fits w := by
  -- flights that have ended do not change, so what a wait was told stays right
  have hended : ∀ {f o}, s.table.flight? f = some o → o ≠ .pending → t.table.flight? f = some o :=
    fun hf ho => h.flight?_ended hf ho
  intro w hw
  cases h with
  | claim names done => exact (hs w hw).mono (Nat.le_refl _) hended
  | leave => exact (hs w hw).mono (Nat.le_refl _) hended
  | land => exact (hs w hw).mono (Nat.le_refl _) hended
  | wait f timeout =>
    obtain ⟨w', hwaits, hw'⟩ := beginWait_cases (s := s) f timeout
    rw [hwaits] at hw
    rcases List.mem_append.mp hw with hw | hw
    · exact (hs w hw).mono (Nat.le_of_eq (now_beginWait f timeout).symm) hended
    · obtain rfl := List.mem_singleton.mp hw
      rcases hw' with ⟨hend, he, -⟩ | ⟨hend, he, -⟩
      · rw [Fits, he]
        exact hend
      · rw [Fits, he]
        exact hend
  | @wake w₀ e i _ hi hgoing he =>
    have hend : ¬ w₀.Endless := by
      have hfits := hs w₀ (List.mem_of_getElem? hi)
      rwa [Fits, hgoing] at hfits
    rcases List.mem_or_eq_of_mem_set hw with hw | rfl
    · exact (hs w hw).mono (Nat.le_refl _) hended
    · exact (fits_endOf? hend he).mono (Nat.le_refl _) hended
  | elapse nanos => exact (hs w hw).mono (Nat.le_add_right _ _) hended

theorem fits {now : Moment} (h : (fresh now).perform ops = some s) : ∀ w ∈ s.waits, s.Fits w :=
  perform_invariant (P := fun _ s => ∀ w ∈ s.waits, s.Fits w) (by simp [fresh])
    (fun hs hm => hm.fits hs) h

def BrokenByWait (s : Clients α) : Prop :=
  s.broken.isSome ↔ ∃ w ∈ s.waits, w.Endless

theorem Move.brokenByWait (h : Move s op t) (hs : s.BrokenByWait) : t.BrokenByWait := by
  cases h with
  | wait f timeout =>
    obtain ⟨w, hwaits, hw⟩ := beginWait_cases (s := s) f timeout
    unfold BrokenByWait
    rw [hwaits]
    rcases hw with ⟨hend, -, hbroken⟩ | ⟨hend, -, hbroken⟩
    · rw [hbroken]
      exact iff_of_true rfl ⟨w, by simp, hend⟩
    · rw [hbroken, show s.broken.isSome ↔ _ from hs]
      simp [or_and_right, exists_or, hend]
  | @wake w e i _ hi =>
    -- the wait that is over ends when it did before
    refine hs.trans ⟨?_, ?_⟩
    · rintro ⟨w', hw', hend⟩
      obtain ⟨j, hj⟩ := List.mem_iff_getElem?.mp hw'
      by_cases hij : i = j
      · subst hij
        obtain rfl := Option.some.inj (hi.symm.trans hj)
        obtain ⟨hlt, -⟩ := List.getElem?_eq_some_iff.mp hi
        exact ⟨{ w with ending := some e }, List.mem_set hlt _, hend⟩
      · exact ⟨w', List.mem_of_getElem? ((List.getElem?_set_ne hij).trans hj), hend⟩
    · rintro ⟨w', hw', hend⟩
      rcases List.mem_or_eq_of_mem_set hw' with hw' | rfl
      · exact ⟨w', hw', hend⟩
      · exact ⟨w, List.mem_of_getElem? hi, hend⟩
  | _ => exact hs

theorem brokenByWait {now : Moment} (h : (fresh now).perform ops = some s) : s.BrokenByWait :=
  perform_invariant (P := fun _ s => s.BrokenByWait) (by simp [fresh, BrokenByWait])
    (fun hs hm => hm.brokenByWait hs) h

theorem wake_of_ended {i : Nat} {w : Wait α} (hbroken : s.broken = none) (hw : s.waits[i]? = some w)
    (hgoing : w.ending = none) (hf : s.table.flight? w.flight = some o) (ho : o ≠ .pending) :
    ∃ t, s.step (.wake i) = some t ∧ t.waits[i]? = some { w with ending := some (.told o) } := by
  have hend : s.endOf? w = some (.told o) := by
    unfold endOf?
    rw [hf]
    cases o with
    | pending => exact absurd rfl ho
    | landed v => rfl
    | abandoned => rfl
  obtain ⟨hlt, -⟩ := List.getElem?_eq_some_iff.mp hw
  refine ⟨{ s with waits := s.waits.set i { w with ending := some (.told o) } }, ?_, by simp [hlt]⟩
  rw [step_eq_act hbroken, act, wake, hw]
  simp [Option.filter, hgoing, hend]

/-- A wait has been told how the guard of its flight has ended. -/
def Learns (ops : List (Op α)) (s : Clients α) (w : Wait α) : Prop :=
  ∃ o, w.ending = some (.told o) ∧
    ∃ c k, s.claimants[c]? = some k ∧ k.claims.flight = w.flight ∧ EndsWith ops c o

theorem Accounted.endsWith_of_flight? {f : Nat} (h : Accounted ops s)
    (hf : s.table.flight? f = some o) (ho : o ≠ .pending) :
    ∃ k, s.claimants[f]? = some k ∧ k.claims.flight = f ∧ EndsWith ops f o := by
  have hlt : f < s.claimants.length := h.length ▸ (List.getElem?_eq_some_iff.mp hf).1
  have hk := List.getElem?_eq_getElem hlt
  obtain ⟨hflight, -, htenure⟩ := h.claim hk
  refine ⟨_, hk, hflight, h.endsWith_iff.mpr ⟨_, hk, ?_⟩⟩
  rw [hf] at htenure
  cases ht : s.claimants[f].tenure with
  | ended o' =>
    rw [ht] at htenure
    exact htenure.symm
  | _ =>
    rw [ht] at htenure
    exact absurd (Option.some.inj htenure) ho

theorem Fits.learns_iff {w : Wait α} (h : s.Fits w) (hs : Accounted ops s) (hover : w.ending ≠ none)
    (htime : w.ending ≠ some .timedOut) : Learns ops s w ↔ ¬ w.Endless := by
  cases he : w.ending with
  | none => exact absurd he hover
  | some e =>
    simp only [Fits, he] at h
    cases e with
    | told o =>
      obtain ⟨hend, ho, hf⟩ := h
      obtain ⟨k, hk, hflight, hends⟩ := hs.endsWith_of_flight? hf ho
      exact iff_of_true ⟨o, he, _, k, hk, hflight, hends⟩ hend
    | timedOut => exact absurd he htime
    | overflowed e =>
      refine iff_of_false ?_ (not_not_intro h)
      rintro ⟨o, he', -⟩
      rw [he] at he'
      cases he'

/-- In every history of the clients of one table: the table lists what the live guards list; the end
of a guard takes out its own names; a flight that has ended stays as it ended, and has ended the one
way that its one guard did; and of the waits that are over and have not timed out, exactly those
whose end the clock can show have been told that. A wait for a flight that has ended can be over at
once. A history breaks off exactly when a wait begins whose end the clock cannot show. -/
theorem waits_learn_iff {now : Moment} (h : (fresh now).perform ops = some s) :
    s.Consistent ∧
    (∀ c g op o, s.broken = none → s.live? c = some g → op.ending? = some (c, o) →
      ∃ t, s.step op = some t ∧ t.live? = Function.update s.live? c none ∧
        ∀ n, t.table.flightOf? n = if n ∈ g.names then none else s.table.flightOf? n) ∧
    (∀ f o, s.table.flight? f = some o → o ≠ .pending →
      (∃ c k, s.claimants[c]? = some k ∧ k.claims.flight = f ∧ EndsWith ops c o) ∧
        ∀ more t, s.perform more = some t → t.table.flight? f = some o) ∧
    (∀ (c c' : Nat) (k k' : Claimant α), s.claimants[c]? = some k → s.claimants[c']? = some k' →
      k.claims.flight = k'.claims.flight → c = c') ∧
    (∀ c o o', EndsWith ops c o → EndsWith ops c o' → o = o') ∧
    (∀ w ∈ s.waits, s.Fits w) ∧
    (∀ w ∈ s.waits, w.ending ≠ none → w.ending ≠ some .timedOut →
      (Learns ops s w ↔ ¬ w.Endless)) ∧
    (∀ (i : Nat) w o, s.broken = none → s.waits[i]? = some w → w.ending = none →
      s.table.flight? w.flight = some o → o ≠ .pending →
      ∃ t, s.step (.wake i) = some t ∧ t.waits[i]? = some { w with ending := some (.told o) }) ∧
    (s.broken.isSome ↔ ∃ w ∈ s.waits, w.Endless) ∧
    (s.broken.isSome → ∀ op, s.step op = none) := by
  have hs := accounted h
  refine ⟨hs.consistent, ?_, ?_, ?_, ?_, fits h, ?_, ?_, brokenByWait h, ?_⟩
  · intro c g op o hbroken hg ho
    exact hs.ending hbroken hg ho
  · intro f o hf ho
    obtain ⟨k, hk⟩ := hs.endsWith_of_flight? hf ho
    exact ⟨⟨f, k, hk⟩, fun more t ht => perform_flight?_ended ht hf ho⟩
  · intro c c' k k' hk hk' he
    exact (hs.claim hk).1.symm.trans (he.trans (hs.claim hk').1)
  · intro c o o' ho ho'
    obtain ⟨k, hk, hko⟩ := hs.endsWith_iff.mp ho
    obtain ⟨k', hk', hko'⟩ := hs.endsWith_iff.mp ho'
    obtain rfl := Option.some.inj (hk.symm.trans hk')
    exact Option.some.inj (hko.symm.trans hko')
  · intro w hw hover htime
    exact (fits h w hw).learns_iff hs hover htime
  · intro i w o hbroken hw hgoing hf ho
    exact wake_of_ended hbroken hw hgoing hf ho
  · intro hbroken op
    rw [step, if_pos hbroken]

end

/-! ## Histories -/

namespace Sample

def left : Name := ⟨"left", by decide +kernel⟩

def right : Name := ⟨"right", by decide +kernel⟩

def undone : Name → Bool := fun _ => false

end Sample

open Sample

theorem of_any {s : Clients α} {ops : List (Op α)} {P : Clients α → Prop} [DecidablePred P]
    (h : (s.perform ops).any fun t => P t) : ∃ t, s.perform ops = some t ∧ P t := by
  obtain ⟨t, ht, hP⟩ := (Option.any_eq_true _ _).mp h
  exact ⟨t, ht, of_decide_eq_true hP⟩

/-- A batch follows a lone name, which is claimed again between the two moves of its end. -/
def overlapping : List (Op Nat) :=
  [.claim left undone, .claimBatch [left, right, left] undone, .wait 1 left none,
    .wait 1 left (some .zero), .wake 1, .complete 0 7, .claim left undone, .land 0, .wake 0,
    .claimBatch [right, left] undone, .wait 3 right none, .drop 1, .land 1, .wake 2]

theorem waits_learn_iff_overlapping :
    ∃ s, (fresh 0).perform overlapping = some s ∧ s.Consistent ∧
      s.live? 2 = some ⟨2, [left]⟩ ∧ s.table.flightOf? left = some 2 ∧
      s.table.flightOf? right = none ∧
      ∃ w ∈ s.waits, w.ending = some (.told (.landed 7)) ∧ Learns overlapping s w := by
  have hperform : ((fresh 0).perform overlapping).any fun s =>
      s.waits = [⟨0, 0, none, some (.told (.landed 7))⟩, ⟨0, 0, some .zero, some .timedOut⟩,
        ⟨1, 0, none, some (.told .abandoned)⟩] ∧
      s.live? 2 = some ⟨2, [left]⟩ ∧ s.table.flightOf? left = some 2 ∧
      s.table.flightOf? right = none := by
    decide +kernel
  obtain ⟨s, hs, hwaits, hlive, hleft, hright⟩ := of_any hperform
  have hw : ⟨0, 0, none, some (.told (.landed 7))⟩ ∈ s.waits := by
    rw [hwaits]
    exact List.mem_cons_self
  obtain ⟨hconsistent, -, -, -, -, -, hlearn, -⟩ := waits_learn_iff hs
  exact ⟨s, hs, hconsistent, hlive, hleft, hright, _, hw, rfl,
    (hlearn _ hw (by simp) (by simp)).mpr (by simp [Wait.Endless])⟩

/-- A follower begins its wait when the flight has landed, and has an end to it that the clock
cannot show. -/
def overlong : List (Op Nat) :=
  [.claim left undone, .claim left undone, .complete 0 7, .land 0,
    .wait 1 left (some (.ofSeconds 18446744073709551615))]

theorem landed_flight_not_told :
    ∃ s, (fresh 0).perform overlong = some s ∧ s.table.flight? 0 = some (.landed 7) ∧
      s.broken = some .deadline ∧
      ∃ w ∈ s.waits, w.flight = 0 ∧ w.ending ≠ none ∧ w.ending ≠ some .timedOut ∧
        ¬ Learns overlong s w := by
  have hperform : ((fresh 0).perform overlong).any fun s =>
      s.waits = [⟨0, 0, some (.ofSeconds 18446744073709551615), some (.overflowed .deadline)⟩] ∧
      s.table.flight? 0 = some (.landed 7) ∧ s.broken = some .deadline := by
    decide +kernel
  obtain ⟨s, hs, hwaits, hf, hbroken⟩ := of_any hperform
  refine ⟨s, hs, hf, hbroken, _, by rw [hwaits]; exact List.mem_singleton_self _, rfl, by simp, by simp, ?_⟩
  rintro ⟨o, ho, -⟩
  cases ho

end Clients

end OnDemand
