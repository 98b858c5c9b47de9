/-!
# Sets of texts

A finite set of strings, held in ascending order without repetitions, so that its members come out
in a fixed order.
-/

namespace OnDemand

/-- Adds a text to an ascending list, unless it is there. -/
def insertText (x : String) : List String → List String
  | [] => [x]
  | y :: ys => if x < y then x :: y :: ys else if y < x then y :: insertText x ys else y :: ys

theorem mem_insertText {x z : String} : ∀ {l : List String}, z ∈ insertText x l ↔ z = x ∨ z ∈ l
  | [] => by simp [insertText]
  | y :: ys => by
    simp only [insertText]
    split
    · simp
    · split
      · simp only [List.mem_cons, mem_insertText (l := ys)]
        exact or_left_comm
      · rename_i h1 h2
        have : x = y := String.le_antisymm (String.not_lt.mp h2) (String.not_lt.mp h1)
        subst this
        simp

theorem pairwise_insertText {x : String} : ∀ {l : List String}, l.Pairwise (· < ·) →
    (insertText x l).Pairwise (· < ·)
  | [], _ => by simp [insertText]
  | y :: ys, h => by
    obtain ⟨hy, hs⟩ := List.pairwise_cons.mp h
    simp only [insertText]
    split
    · rename_i hx
      refine List.pairwise_cons.mpr ⟨fun z hz => ?_, h⟩
      rcases List.mem_cons.mp hz with rfl | hz
      · exact hx
      · exact String.lt_trans hx (hy z hz)
    · split
      · rename_i hx
        refine List.pairwise_cons.mpr ⟨fun z hz => ?_, pairwise_insertText hs⟩
        rcases mem_insertText.mp hz with rfl | hz
        · exact hx
        · exact hy z hz
      · exact h

/-- A set of texts. -/
structure TextSet where
  items : List String
  ascending : items.Pairwise (· < ·)
deriving DecidableEq

namespace TextSet

def empty : TextSet := ⟨[], List.Pairwise.nil⟩

instance : Inhabited TextSet := ⟨empty⟩

instance : Membership String TextSet := ⟨fun s x => x ∈ s.items⟩

instance (x : String) (s : TextSet) : Decidable (x ∈ s) :=
  inferInstanceAs (Decidable (x ∈ s.items))

def insert (s : TextSet) (x : String) : TextSet :=
  ⟨insertText x s.items, pairwise_insertText s.ascending⟩

/-- Adds texts one after the other. -/
def insertAll (s : TextSet) (xs : List String) : TextSet :=
  xs.foldl insert s

def ofList (xs : List String) : TextSet :=
  empty.insertAll xs

def size (s : TextSet) : Nat :=
  s.items.length

def isEmpty (s : TextSet) : Bool :=
  s.items.isEmpty

/-! ## Small lemmas -/

@[simp]
theorem mem_insert {s : TextSet} {x y : String} : y ∈ s.insert x ↔ y = x ∨ y ∈ s :=
  mem_insertText

@[simp]
theorem not_mem_empty {x : String} : ¬ x ∈ empty :=
  fun h => (List.not_mem_nil h).elim

theorem mem_insertAll {y : String} : ∀ (xs : List String) (s : TextSet),
    y ∈ s.insertAll xs ↔ y ∈ s ∨ y ∈ xs
  | [], s => by simp [insertAll]
  | x :: xs, s => by
    have := mem_insertAll (y := y) xs (s.insert x)
    simp only [insertAll, List.foldl_cons] at this ⊢
    rw [this, mem_insert, List.mem_cons]
    exact ⟨fun h => h.elim (fun h => h.elim (Or.inr ∘ Or.inl) Or.inl) (Or.inr ∘ Or.inr),
      fun h => h.elim (Or.inl ∘ Or.inr) fun h => h.elim (Or.inl ∘ Or.inl) Or.inr⟩

end TextSet

end OnDemand
