import Mathlib.Logic.Function.Basic
import OnDemand.Flight

/-!
# Who holds what in a table of flights

A table stands beside its holders: holder `i` has the guard `hold i`, whose names are those it has
in the table. `Held` says that the two agree and that every name has one holder. `TableMove` lists
what a holder can do to the table, and `Held.move` says that `Held` survives it.
-/

namespace OnDemand

namespace FlightTable

variable {α : Type} {t t' : FlightTable α} {n : Name} {f : Nat}

/-! ## The table -/

theorem mem_of_flightOf? (h : t.flightOf? n = some f) : (n, f) ∈ t.claimed := by
  obtain ⟨before, after, he, -⟩ := List.lookup_eq_some_iff.mp h
  rw [he]
  simp

theorem not_mem_of_flightOf? (h : t.flightOf? n = none) (f : Nat) : (n, f) ∉ t.claimed := by
  intro hm
  have := List.lookup_eq_none_iff.mp h (n, f) hm
  simp at this

theorem flight?_begin_fresh (t : FlightTable α) : t.flight? t.begin.1 = none := by
  simp [begin, flight?]

theorem flight?_begin_self (t : FlightTable α) : t.begin.2.flight? t.begin.1 = some .pending := by
  simp [begin, flight?]

theorem flight?_begin_ne (hf : f ≠ t.begin.1) : t.begin.2.flight? f = t.flight? f := by
  have hlen : t.begin.1 = t.flights.length := rfl
  simp only [begin, flight?]
  rcases Nat.lt_or_ge f t.flights.length with h | h
  · rw [List.getElem?_append_left h]
  · rw [List.getElem?_eq_none (by simp; omega), List.getElem?_eq_none h]

theorem mem_release {g : Guard} :
    (n, f) ∈ (t.release g).claimed ↔ (n, f) ∈ t.claimed ∧ ¬ (n ∈ g.names ∧ f = g.flight) := by
  simp [release, imp_iff_not_or]

theorem flight?_settle_ne {f' : Nat} (o : Flight α) (hf : f' ≠ f) :
    (t.settle f o).flight? f' = t.flight? f' := by
  unfold settle
  split
  · simp [flight?, List.getElem?_set_ne (Ne.symm hf)]
  · rfl

theorem flight?_settle_self (o : Flight α) (hf : t.flight? f = some .pending) :
    (t.settle f o).flight? f = some o := by
  obtain ⟨hlt, -⟩ := List.getElem?_eq_some_iff.mp hf
  rw [settle, hf]
  simp [flight?, hlt]

theorem settle_ended (o : Flight α) (hf : t.flight? f ≠ some .pending) : t.settle f o = t := by
  unfold settle
  split
  · exact absurd ‹_› hf
  · rfl

theorem claimed_settle (t : FlightTable α) (f : Nat) (o : Flight α) :
    (t.settle f o).claimed = t.claimed := by
  unfold settle
  split <;> rfl

/-! ## Holders -/

/-- A guard, if there is one, has a name in the table under a flight. -/
def Has (g : Option Guard) (n : Name) (f : Nat) : Prop :=
  ∃ γ, g = some γ ∧ γ.flight = f ∧ n ∈ γ.names

theorem has_some {γ : Guard} : Has (some γ) n f ↔ γ.flight = f ∧ n ∈ γ.names := by
  simp [Has]

theorem not_has_none : ¬ Has none n f := by
  rintro ⟨γ, h, -⟩
  cases h

/-- A table and its holders agree. -/
structure Held (t : FlightTable α) (hold : Nat → Option Guard) : Prop where
  claimed_iff : ∀ {n f}, (n, f) ∈ t.claimed ↔ ∃ i, Has (hold i) n f
  /-- A name has one holder. -/
  once : ∀ {i j n f f'}, Has (hold i) n f → Has (hold j) n f' → i = j
  /-- A flight has one holder. -/
  apart : ∀ {i j γ γ'}, hold i = some γ → hold j = some γ' → γ.flight = γ'.flight → i = j
  pending : ∀ {i γ}, hold i = some γ → t.flight? γ.flight = some .pending

theorem held_empty : (empty : FlightTable α).Held fun _ => none where
  claimed_iff := by simp [empty, Has]
  once := fun h => absurd h not_has_none
  apart := by simp
  pending := by simp

variable {hold : Nat → Option Guard} {i : Nat} {g g' : Option Guard}

/-- One holder exchanges its guard. Names it has anew were in nobody's flight, and a flight it has
anew was nobody's. -/
theorem Held.exchange (h : t.Held hold) (hi : hold i = g)
    (hclaimed : ∀ n f, (n, f) ∈ t'.claimed ↔ ((n, f) ∈ t.claimed ∧ ¬ Has g n f) ∨ Has g' n f)
    (hnames : ∀ n f, Has g' n f → Has g n f ∨ ∀ f', (n, f') ∉ t.claimed)
    (hflight : ∀ γ', g' = some γ' → t'.flight? γ'.flight = some .pending ∧
      ((∃ γ, g = some γ ∧ γ.flight = γ'.flight) ∨ ∀ j γ, hold j = some γ → γ.flight ≠ γ'.flight))
    (hothers : ∀ j γ, j ≠ i → hold j = some γ → t'.flight? γ.flight = some .pending) :
    t'.Held (Function.update hold i g') := by
  subst hi
  have hself : ∀ {j n f}, Has (Function.update hold i g' j) n f →
      (j = i ∧ Has g' n f) ∨ (j ≠ i ∧ Has (hold j) n f) := by
    intro j n f hj
    by_cases hji : j = i
    · subst hji
      rw [Function.update_self] at hj
      exact Or.inl ⟨rfl, hj⟩
    · rw [Function.update_of_ne hji] at hj
      exact Or.inr ⟨hji, hj⟩
  -- what the holder has anew no other holder has
  have hclash : ∀ {j n f f'}, Has g' n f → j ≠ i → ¬ Has (hold j) n f' := by
    intro j n f f' hg' hji hj
    rcases hnames n f hg' with hg | hfree
    · exact hji (h.once hj hg)
    · exact hfree f' (h.claimed_iff.mpr ⟨j, hj⟩)
  refine ⟨?_, ?_, ?_, ?_⟩
  · intro n f
    rw [hclaimed]
    constructor
    · rintro (⟨hm, hno⟩ | hg')
      · obtain ⟨j, hj⟩ := h.claimed_iff.mp hm
        have hji : j ≠ i := fun e => hno (e ▸ hj)
        exact ⟨j, by rw [Function.update_of_ne hji]; exact hj⟩
      · exact ⟨i, by rw [Function.update_self]; exact hg'⟩
    · rintro ⟨j, hj⟩
      rcases hself hj with ⟨-, hg'⟩ | ⟨hji, hj⟩
      · exact Or.inr hg'
      · exact Or.inl ⟨h.claimed_iff.mpr ⟨j, hj⟩, fun hg => hji (h.once hj hg)⟩
  · intro j k n f f' hj hk
    rcases hself hj with ⟨hji, hj'⟩ | ⟨hji, hj'⟩ <;> rcases hself hk with ⟨hki, hk'⟩ | ⟨hki, hk'⟩
    · rw [hji, hki]
    · exact absurd hk' (hclash hj' hki)
    · exact absurd hj' (hclash hk' hji)
    · exact h.once hj' hk'
  · intro j k γ γ' hj hk he
    by_cases hji : j = i <;> by_cases hki : k = i
    · rw [hji, hki]
    · subst hji
      rw [Function.update_self] at hj
      rw [Function.update_of_ne hki] at hk
      rcases (hflight γ hj).2 with ⟨δ, hδ, hδγ⟩ | hnew
      · exact h.apart hδ hk (hδγ.trans he)
      · exact absurd he.symm (hnew k γ' hk)
    · subst hki
      rw [Function.update_of_ne hji] at hj
      rw [Function.update_self] at hk
      rcases (hflight γ' hk).2 with ⟨δ, hδ, hδγ⟩ | hnew
      · exact h.apart hj hδ (he.trans hδγ.symm)
      · exact absurd he (hnew j γ hj)
    · rw [Function.update_of_ne hji] at hj
      rw [Function.update_of_ne hki] at hk
      exact h.apart hj hk he
  · intro j γ hj
    by_cases hji : j = i
    · subst hji
      rw [Function.update_self] at hj
      exact (hflight γ hj).1
    · rw [Function.update_of_ne hji] at hj
      exact hothers j γ hji hj

theorem Held.begin_ne (h : t.Held hold) {j : Nat} {γ : Guard} (hj : hold j = some γ) :
    γ.flight ≠ t.begin.1 := by
  intro he
  have hp := h.pending hj
  rw [he, flight?_begin_fresh] at hp
  cases hp

/-! ## What a holder can do -/

/-- `TableMove stored t g t' g'`: a holder with the guard `g` turns `t` into `t'` and has `g'`
then. -/
inductive TableMove (stored : Name → Bool) :
    FlightTable α → Option Guard → FlightTable α → Option Guard → Prop where
  | rest (t : FlightTable α) (g : Option Guard) : TableMove stored t g t g
  | begin (t : FlightTable α) : TableMove stored t none t.begin.2 (some ⟨t.begin.1, []⟩)
  /-- A flight is begun and nothing is claimed for it. -/
  | idle (t : FlightTable α) : TableMove stored t none t.begin.2 none
  | claim (t : FlightTable α) (γ : Guard) (n : Name) : t.flightOf? n = none → stored n = false →
      TableMove stored t (some γ) { t with claimed := t.claimed ++ [(n, γ.flight)] }
        (some ⟨γ.flight, γ.names ++ [n]⟩)
  /-- A flight is begun and one name is claimed for it. -/
  | lead (t : FlightTable α) (n : Name) : t.flightOf? n = none → stored n = false →
      TableMove stored t none
        { t.begin.2 with claimed := t.claimed ++ [(n, t.begin.1)] } (some ⟨t.begin.1, [n]⟩)
  | release (t : FlightTable α) (γ : Guard) : TableMove stored t (some γ) (t.release γ) (some ⟨γ.flight, []⟩)
  | settle (t : FlightTable α) (γ : Guard) (o : Flight α) : γ.names = [] → o ≠ .pending →
      TableMove stored t (some γ) (t.settle γ.flight o) none
  /-- A holder of no name gives its flight up. -/
  | leave (t : FlightTable α) (γ : Guard) : γ.names = [] → TableMove stored t (some γ) t none

variable {stored : Name → Bool}

theorem TableMove.same (g : Option Guard) (h : t' = t) : TableMove stored t g t' g := by
  subst h
  exact .rest _ _

theorem Held.move (h : t.Held hold) (hi : hold i = g) (hm : TableMove stored t g t' g') :
    t'.Held (Function.update hold i g') := by
  -- one guard changes, and takes or gives up what the table takes in or out
  cases hm with
  | rest =>
    rw [← hi, Function.update_eq_self]
    exact h
  | begin =>
    refine h.exchange hi (fun n f => by simp [FlightTable.begin, Has]) (fun n f hg => ?_)
      (fun γ' hγ' => ?_) (fun j γ _ hj => ?_)
    · simp [Has] at hg
    · obtain rfl := Option.some.inj hγ'
      exact ⟨flight?_begin_self t, Or.inr fun j γ hj => h.begin_ne hj⟩
    · rw [flight?_begin_ne (h.begin_ne hj)]
      exact h.pending hj
  | idle =>
    refine h.exchange hi (fun n f => by simp [FlightTable.begin, Has]) (fun n f hg => ?_)
      (fun γ' hγ' => ?_) (fun j γ _ hj => ?_)
    · simp [Has] at hg
    · cases hγ'
    · rw [flight?_begin_ne (h.begin_ne hj)]
      exact h.pending hj
  | claim γ n hn =>
    refine h.exchange hi (fun m f => ?_) (fun m f hg => ?_) (fun γ' hγ' => ?_)
      (fun j δ _ hj => h.pending hj)
    · rw [List.mem_append, List.mem_singleton, has_some, has_some, List.mem_append,
        List.mem_singleton, Prod.mk.injEq]
      have hmine : (γ.flight = f ∧ m ∈ γ.names) → (m, f) ∈ t.claimed :=
        fun hm => h.claimed_iff.mpr ⟨i, by rw [hi, has_some]; exact hm⟩
      constructor
      · rintro (hm | ⟨rfl, rfl⟩)
        · by_cases hg : γ.flight = f ∧ m ∈ γ.names
          · exact Or.inr ⟨hg.1, Or.inl hg.2⟩
          · exact Or.inl ⟨hm, hg⟩
        · exact Or.inr ⟨rfl, Or.inr rfl⟩
      · rintro (⟨hm, -⟩ | ⟨rfl, hm | rfl⟩)
        · exact Or.inl hm
        · exact Or.inl (hmine ⟨rfl, hm⟩)
        · exact Or.inr ⟨rfl, rfl⟩
    · rw [has_some, List.mem_append, List.mem_singleton] at hg
      obtain ⟨hf, hm | rfl⟩ := hg
      · exact Or.inl (has_some.mpr ⟨hf, hm⟩)
      -- the name was free, so no other guard has it
      · exact Or.inr fun f' => not_mem_of_flightOf? hn f'
    · obtain rfl := Option.some.inj hγ'
      have hp := h.pending hi
      exact ⟨hp, Or.inl ⟨γ, rfl, rfl⟩⟩
  | lead n hn =>
    refine h.exchange hi (fun m f => ?_) (fun m f hg => ?_) (fun γ' hγ' => ?_)
      (fun j δ _ hj => ?_)
    · simp [Has, eq_comm, and_comm]
    · rw [has_some, List.mem_singleton] at hg
      obtain ⟨-, rfl⟩ := hg
      exact Or.inr fun f' => not_mem_of_flightOf? hn f'
    · obtain rfl := Option.some.inj hγ'
      exact ⟨flight?_begin_self t, Or.inr fun j γ hj => h.begin_ne hj⟩
    · show t.begin.2.flight? δ.flight = _
      rw [flight?_begin_ne (h.begin_ne hj)]
      exact h.pending hj
  | release γ =>
    refine h.exchange hi (fun m f => ?_) (fun m f hg => ?_) (fun γ' hγ' => ?_)
      (fun j δ _ hj => h.pending hj)
    · rw [mem_release, has_some, has_some]
      simp [and_comm, eq_comm]
    · simp [Has] at hg
    · obtain rfl := Option.some.inj hγ'
      have hp := h.pending hi
      exact ⟨hp, Or.inl ⟨γ, rfl, rfl⟩⟩
  | settle γ o hnames =>
    refine h.exchange hi (fun m f => ?_) (fun m f hg => absurd hg not_has_none)
      (fun γ' hγ' => by cases hγ') (fun j δ hji hj => ?_)
    · rw [claimed_settle, has_some, hnames]
      simp [Has]
    · rw [flight?_settle_ne o fun he => hji (h.apart hj hi he)]
      exact h.pending hj
  | leave γ hnames =>
    refine h.exchange hi (fun m f => ?_) (fun m f hg => absurd hg not_has_none)
      (fun γ' hγ' => by cases hγ') (fun j δ _ hj => h.pending hj)
    rw [has_some, hnames]
    simp [Has]

/-! ## Flights -/

theorem TableMove.claimed (hm : TableMove stored t g t' g') (hf : (n, f) ∈ t'.claimed) :
    (n, f) ∈ t.claimed ∨ stored n = false := by
  cases hm with
  | claim γ m _ hm =>
    rcases List.mem_append.mp hf with hf | hf
    · exact Or.inl hf
    · obtain ⟨rfl, -⟩ := Prod.mk.inj (List.mem_singleton.mp hf)
      exact Or.inr hm
  | lead m _ hm =>
    rcases List.mem_append.mp hf with hf | hf
    · exact Or.inl hf
    · obtain ⟨rfl, -⟩ := Prod.mk.inj (List.mem_singleton.mp hf)
      exact Or.inr hm
  | release => exact Or.inl (mem_release.mp hf).1
  | settle =>
    rw [claimed_settle] at hf
    exact Or.inl hf
  | _ => exact Or.inl hf

theorem TableMove.flight_eq {γ γ' : Guard} (hm : TableMove stored t (some γ) t' (some γ')) :
    γ'.flight = γ.flight := by
  cases hm <;> rfl

theorem TableMove.flights_length (hm : TableMove stored t g t' g') :
    t.flights.length ≤ t'.flights.length := by
  cases hm with
  | begin => simp [FlightTable.begin]
  | idle => simp [FlightTable.begin]
  | lead => simp [FlightTable.begin]
  | settle γ o =>
    unfold FlightTable.settle
    split <;> simp
  | _ => exact Nat.le_refl _

theorem TableMove.flight?_ended (hm : TableMove stored t g t' g') {o : Flight α}
    (hf : t.flight? f = some o) (ho : o ≠ .pending) : t'.flight? f = some o := by
  have hne : f ≠ t.begin.1 := by
    rintro rfl
    rw [flight?_begin_fresh] at hf
    cases hf
  cases hm with
  | begin => exact (flight?_begin_ne hne).trans hf
  | idle => exact (flight?_begin_ne hne).trans hf
  | lead => exact (flight?_begin_ne hne).trans hf
  | settle γ o' =>
    by_cases hγ : f = γ.flight
    · subst hγ
      rw [settle_ended o' (by rw [hf]; simpa using ho), hf]
    · rw [flight?_settle_ne o' hγ, hf]
  | _ => exact hf

end FlightTable

end OnDemand
