import Mathlib.Order.Bounds.Defs
import OnDemand.Config.Suggestion

/-!
# Nearest keys

The distance of two texts is the least number of edits that lead from one to the other, wherever the
edits are made and in whatever order (`editDistance_isLeast`). The distance is worked out row by row and
each row holds the distances from what has been read of the first text to the beginnings of the second
(`foldl_nextRow`). So the key that is suggested is the first of the known keys that are nearest, if two
edits are enough (`suggest_nearest`).
-/

namespace OnDemand.Config

variable {as bs cs done : List UInt8} {a b : UInt8} {n d : Nat} {key k : String} {ks : List String}

/-! ## Edits -/

/-- A byte is put in, left out or replaced, anywhere. -/
inductive Edit : List UInt8 → List UInt8 → Prop where
  | insert (before after : List UInt8) (b : UInt8) : Edit (before ++ after) (before ++ b :: after)
  | delete (before after : List UInt8) (a : UInt8) : Edit (before ++ a :: after) (before ++ after)
  | replace (before after : List UInt8) (a b : UInt8) :
    Edit (before ++ a :: after) (before ++ b :: after)

inductive Edits : Nat → List UInt8 → List UInt8 → Prop where
  | none (as : List UInt8) : Edits 0 as as
  | step {n : Nat} {as bs cs : List UInt8} : Edit as bs → Edits n bs cs → Edits (n + 1) as cs

theorem Edit.cons (c : UInt8) (h : Edit as bs) : Edit (c :: as) (c :: bs) := by
  cases h with
  | insert before after b => exact .insert (c :: before) after b
  | delete before after a => exact .delete (c :: before) after a
  | replace before after a b => exact .replace (c :: before) after a b

theorem Edit.reverse (h : Edit as bs) : Edit as.reverse bs.reverse := by
  cases h with
  | insert before after b => simpa using Edit.insert after.reverse before.reverse b
  | delete before after a => simpa using Edit.delete after.reverse before.reverse a
  | replace before after a b => simpa using Edit.replace after.reverse before.reverse a b

theorem Edits.cons (c : UInt8) (h : Edits n as bs) : Edits n (c :: as) (c :: bs) := by
  induction h with
  | none as => exact .none _
  | step hedit _ ih => exact .step (hedit.cons c) ih

theorem Edits.reverse (h : Edits n as bs) : Edits n as.reverse bs.reverse := by
  induction h with
  | none as => exact .none _
  | step hedit _ ih => exact .step hedit.reverse ih

theorem Edits.insert (b : UInt8) (h : Edits n as bs) : Edits (n + 1) as (b :: bs) :=
  .step (.insert [] as b) (h.cons b)

theorem Edits.delete (a : UInt8) (h : Edits n as bs) : Edits (n + 1) (a :: as) bs :=
  .step (.delete [] as a) h

theorem Edits.replace (a b : UInt8) (h : Edits n as bs) : Edits (n + 1) (a :: as) (b :: bs) :=
  .step (.replace [] as a b) (h.cons b)

theorem Edits.min {m : Nat} (hm : Edits m as bs) (hn : Edits n as bs) : Edits (min m n) as bs := by
  rcases Nat.le_total m n with h | h
  · rwa [Nat.min_eq_left h]
  · rwa [Nat.min_eq_right h]

/-! ## Distance by first bytes -/

/-- The least number of edits where each is made in front of what is left to do. -/
def distance : List UInt8 → List UInt8 → Nat
  | [], [] => 0
  | [], _ :: bs => distance [] bs + 1
  | _ :: as, [] => distance as [] + 1
  | a :: as, b :: bs =>
    min (min (distance as (b :: bs) + 1) (distance (a :: as) bs + 1))
      (distance as bs + if a = b then 0 else 1)
termination_by as bs => as.length + bs.length

@[simp]
theorem distance_nil_left : ∀ bs : List UInt8, distance [] bs = bs.length
  | [] => by rw [distance]; rfl
  | b :: bs => by rw [distance, distance_nil_left bs, List.length_cons]

@[simp]
theorem distance_nil_right : ∀ as : List UInt8, distance as [] = as.length
  | [] => distance_nil_left []
  | a :: as => by rw [distance, distance_nil_right as, List.length_cons]

theorem distance_cons_cons (a : UInt8) (as : List UInt8) (b : UInt8) (bs : List UInt8) :
    distance (a :: as) (b :: bs) =
      min (min (distance as (b :: bs) + 1) (distance (a :: as) bs + 1))
        (distance as bs + if a = b then 0 else 1) := by
  rw [distance]

theorem distance_self : ∀ as : List UInt8, distance as as = 0
  | [] => distance_nil_left []
  | a :: as => by simp [distance_cons_cons, distance_self as]

theorem edits_distance (as bs : List UInt8) : Edits (distance as bs) as bs := by
  fun_induction distance as bs with
  | case1 => exact .none []
  | case2 b bs ih => exact ih.insert b
  | case3 a as ih => exact ih.delete a
  | case4 a as b bs hdelete hinsert hkeep =>
    have hfront : Edits (distance as bs + if a = b then 0 else 1) (a :: as) (b :: bs) := by
      split
      · rename_i h
        exact h ▸ hkeep.cons a
      · exact hkeep.replace a b
    exact ((hdelete.delete a).min (hinsert.insert b)).min hfront

/-! ## What one edit changes -/

theorem distance_insert_le (as : List UInt8) (b : UInt8) : ∀ bs : List UInt8,
    distance as (b :: bs) ≤ distance as bs + 1 := by
  intro bs
  cases as with
  | nil => simp
  | cons a as =>
    rw [distance_cons_cons]
    omega

theorem distance_delete_le (a : UInt8) (as bs : List UInt8) :
    distance (a :: as) bs ≤ distance as bs + 1 := by
  cases bs with
  | nil => simp
  | cons b bs =>
    rw [distance_cons_cons]
    omega

theorem distance_keep_le (a : UInt8) (as : List UInt8) (b : UInt8) (bs : List UInt8) :
    distance (a :: as) (b :: bs) ≤ distance as bs + 1 := by
  rw [distance_cons_cons]
  split <;> omega

theorem distance_le_delete (a : UInt8) (as : List UInt8) : ∀ bs : List UInt8,
    distance as bs ≤ distance (a :: as) bs + 1
  | [] => by simp; omega
  | b :: bs => by
    have ih := distance_le_delete a as bs
    have hinsert := distance_insert_le as b bs
    rw [distance_cons_cons]
    omega

theorem distance_le_replace (a b : UInt8) (as : List UInt8) : ∀ cs : List UInt8,
    distance (a :: as) cs ≤ distance (b :: as) cs + 1
  | [] => by simp
  | c :: cs => by
    have ih := distance_le_replace a b as cs
    have hdelete := distance_delete_le a as (c :: cs)
    have hinsert := distance_insert_le (a :: as) c cs
    have hkeep := distance_keep_le a as c cs
    rw [distance_cons_cons b]
    omega

theorem distance_cons_le (h : ∀ cs, distance as cs ≤ distance bs cs + 1) (a : UInt8) :
    ∀ cs : List UInt8, distance (a :: as) cs ≤ distance (a :: bs) cs + 1
  | [] => by
    have hnil := h []
    simp only [distance_nil_right] at hnil
    simpa using hnil
  | c :: cs => by
    have ih := distance_cons_le h a cs
    have hdelete := h (c :: cs)
    have hkeep := h cs
    rw [distance_cons_cons, distance_cons_cons]
    omega

theorem distance_append_le (before : List UInt8) (h : ∀ cs, distance as cs ≤ distance bs cs + 1)
    (cs : List UInt8) : distance (before ++ as) cs ≤ distance (before ++ bs) cs + 1 := by
  induction before generalizing cs with
  | nil => exact h cs
  | cons a before ih => exact distance_cons_le ih a cs

theorem distance_le_of_edit (h : Edit as bs) (cs : List UInt8) :
    distance as cs ≤ distance bs cs + 1 := by
  cases h with
  | insert before after b => exact distance_append_le before (distance_le_delete b after) cs
  | delete before after a => exact distance_append_le before (distance_delete_le a after) cs
  | replace before after a b => exact distance_append_le before (distance_le_replace a b after) cs

theorem distance_le_of_edits (h : Edits n as bs) : distance as bs ≤ n := by
  induction h with
  | none as => exact Nat.le_of_eq (distance_self as)
  | step hedit _ ih => exact Nat.le_trans (distance_le_of_edit hedit _) (Nat.add_le_add_right ih 1)

/-! ## Rows

What has been read of a text stands backwards here, so that the byte read last comes first. -/

/-- The distances from one text to the longer and longer beginnings of another, after one of them. -/
def distances (read done : List UInt8) : List UInt8 → List Nat
  | [] => []
  | b :: bs => distance read (b :: done) :: distances read (b :: done) bs

def row (read bs : List UInt8) : List Nat :=
  distance read [] :: distances read [] bs

theorem distances_nil (bs done : List UInt8) :
    distances [] done bs = List.range' (done.length + 1) bs.length := by
  induction bs generalizing done with
  | nil => rfl
  | cons b bs ih => rw [distances, ih, distance_nil_left, List.length_cons, List.length_cons,
      List.range'_succ]

theorem row_nil (bs : List UInt8) : row [] bs = List.range (bs.length + 1) := by
  rw [row, distances_nil, distance_nil_left, List.range_eq_range', List.range'_succ]
  rfl

theorem fillRow_distances (a : UInt8) (read bs done : List UInt8) :
    fillRow a bs (distance read done) (distances read done bs) (distance (a :: read) done) =
      distances (a :: read) done bs := by
  induction bs generalizing done with
  | nil => rfl
  | cons b bs ih => simp only [distances, fillRow, ← distance_cons_cons, ih]

theorem nextRow_row (bs read : List UInt8) (a : UInt8) :
    nextRow bs (row read bs) a = row (a :: read) bs := by
  have hcorner : distance read [] + 1 = distance (a :: read) [] := by simp
  rw [row, nextRow, hcorner, fillRow_distances]
  rfl

/-- Each byte that is read gives the row of what has been read with it. -/
theorem foldl_nextRow (as bs read : List UInt8) :
    as.foldl (nextRow bs) (row read bs) = row (as.reverse ++ read) bs := by
  induction as generalizing read with
  | nil => rfl
  | cons a as ih => simp [nextRow_row, ih]

theorem getLastD_distances (read bs done : List UInt8) :
    (distances read done bs).getLastD (distance read done) = distance read (bs.reverse ++ done) := by
  induction bs generalizing done with
  | nil => rfl
  | cons b bs ih => rw [distances, List.getLastD_cons, ih]; simp

theorem editDistance_eq (as bs : List UInt8) :
    editDistance as bs = distance as.reverse bs.reverse := by
  rw [editDistance, ← row_nil, foldl_nextRow, row, List.getLastD_cons, getLastD_distances]
  simp

/-- The edit distance is the least number of edits that lead from one text to the other. -/
theorem editDistance_isLeast (as bs : List UInt8) :
    IsLeast {n | Edits n as bs} (editDistance as bs) := by
  rw [editDistance_eq]
  constructor
  · have h := (edits_distance as.reverse bs.reverse).reverse
    rwa [List.reverse_reverse, List.reverse_reverse] at h
  · intro n h
    exact distance_le_of_edits h.reverse

/-! ## The nearest key -/

/-- A candidate than which none is nearer, and none before it as near. -/
def FirstNearest (key : String) (ks : List String) (k : String) : Prop :=
  ∃ before after, ks = before ++ k :: after ∧
    (∀ j ∈ before, distanceTo key k < distanceTo key j) ∧
    ∀ j ∈ after, distanceTo key k ≤ distanceTo key j

theorem FirstNearest.le (h : FirstNearest key ks k) : ∀ j ∈ ks, distanceTo key k ≤ distanceTo key j := by
  obtain ⟨before, after, rfl, hbefore, hafter⟩ := h
  intro j hj
  rcases List.mem_append.mp hj with hj | hj
  · exact Nat.le_of_lt (hbefore j hj)
  · rcases List.mem_cons.mp hj with rfl | hj
    · exact Nat.le_refl _
    · exact hafter j hj

theorem firstNearest_cons {first : String} : FirstNearest key (first :: ks) k ↔
    (k = first ∧ ∀ j ∈ ks, distanceTo key first ≤ distanceTo key j) ∨
    (distanceTo key k < distanceTo key first ∧ FirstNearest key ks k) := by
  constructor
  · rintro ⟨before, after, hks, hbefore, hafter⟩
    cases before with
    | nil =>
      obtain ⟨rfl, rfl⟩ := List.cons.inj hks
      exact Or.inl ⟨rfl, hafter⟩
    | cons j before =>
      obtain ⟨rfl, rfl⟩ := List.cons.inj hks
      exact Or.inr ⟨hbefore first (by simp), before, after, rfl,
        fun j hj => hbefore j (List.mem_cons_of_mem _ hj), hafter⟩
  · rintro (⟨rfl, hle⟩ | ⟨hlt, before, after, rfl, hbefore, hafter⟩)
    · exact ⟨[], ks, rfl, by simp, hle⟩
    · exact ⟨first :: before, after, rfl, List.forall_mem_cons.mpr ⟨hlt, hbefore⟩, hafter⟩

theorem FirstNearest.mem (h : FirstNearest key ks k) : k ∈ ks := by
  obtain ⟨before, after, rfl, -, -⟩ := h
  simp

theorem FirstNearest.unique {k' : String} (h : FirstNearest key ks k) (h' : FirstNearest key ks k') :
    k = k' := by
  induction ks with
  | nil => cases h.mem
  | cons first ks ih =>
    rcases firstNearest_cons.mp h with ⟨rfl, hle⟩ | ⟨hlt, hrest⟩ <;>
      rcases firstNearest_cons.mp h' with ⟨rfl, hle'⟩ | ⟨hlt', hrest'⟩
    · rfl
    · exact absurd (hle k' hrest'.mem) (Nat.not_le.mpr hlt')
    · exact absurd (hle' k hrest.mem) (Nat.not_le.mpr hlt)
    · exact ih hrest hrest'

theorem nearest_eq_none : nearest key ks = none ↔ ks = [] := by
  cases ks with
  | nil => simp [nearest]
  | cons first ks =>
    rw [nearest]
    split
    · simp
    · split <;> simp

theorem firstNearest_of_nearest (h : nearest key ks = some (k, d)) :
    FirstNearest key ks k ∧ d = distanceTo key k := by
  induction ks generalizing k d with
  | nil => cases h
  | cons first ks ih =>
    rw [nearest] at h
    rw [firstNearest_cons]
    split at h
    · rename_i hnone
      obtain ⟨rfl, rfl⟩ := Prod.mk.inj (Option.some.inj h)
      exact ⟨Or.inl ⟨rfl, by simp [nearest_eq_none.mp hnone]⟩, rfl⟩
    · rename_i best e hbest
      obtain ⟨hfirst, rfl⟩ := ih hbest
      split at h
      · rename_i hle
        obtain ⟨rfl, rfl⟩ := Prod.mk.inj (Option.some.inj h)
        exact ⟨Or.inl ⟨rfl, fun j hj => Nat.le_trans hle (hfirst.le j hj)⟩, rfl⟩
      · rename_i hlt
        obtain ⟨rfl, rfl⟩ := Prod.mk.inj (Option.some.inj h)
        exact ⟨Or.inr ⟨Nat.not_le.mp hlt, hfirst⟩, rfl⟩

theorem exists_nearest (key : String) (hne : ks ≠ []) :
    ∃ k, nearest key ks = some (k, distanceTo key k) ∧ FirstNearest key ks k := by
  cases h : nearest key ks with
  | none => exact absurd (nearest_eq_none.mp h) hne
  | some found =>
    obtain ⟨k, d⟩ := found
    obtain ⟨hfirst, rfl⟩ := firstNearest_of_nearest h
    exact ⟨k, rfl, hfirst⟩

theorem suggest_of_nearest (h : nearest key knownKeys = some (k, d)) :
    suggest key = if d ≤ 2 then some k else none := by
  unfold suggest
  simp only [h]

theorem knownKeys_ne_nil : knownKeys ≠ [] :=
  List.cons_ne_nil _ _

/-- The edit distance is the least number of edits. The first of the nearest known keys is suggested where
it is at most two edits away; no key is suggested exactly if all are farther. -/
theorem suggest_nearest (key : String) :
    (∀ as bs, IsLeast {n | Edits n as bs} (editDistance as bs)) ∧
    (∀ k, suggest key = some k ↔ FirstNearest key knownKeys k ∧ distanceTo key k ≤ 2) ∧
    (suggest key = none ↔ ∀ k ∈ knownKeys, 2 < distanceTo key k) := by
  -- there are known keys, so one of them is the nearest
  obtain ⟨best, hnearest, hbest⟩ := exists_nearest key knownKeys_ne_nil
  have hsuggest := suggest_of_nearest hnearest
  refine ⟨editDistance_isLeast, fun k => ?_, ?_⟩
  · rw [hsuggest]
    constructor
    · intro h
      split at h
      · rename_i hle
        obtain rfl := Option.some.inj h
        exact ⟨hbest, hle⟩
      · cases h
    · rintro ⟨hk, hle⟩
      obtain rfl := hbest.unique hk
      rw [if_pos hle]
  · rw [hsuggest]
    constructor
    · intro h k hk
      split at h
      · cases h
      · rename_i hlt
        exact Nat.lt_of_lt_of_le (Nat.not_le.mp hlt) (hbest.le k hk)
    · intro h
      rw [if_neg (Nat.not_le.mpr (h best hbest.mem))]

theorem suggest_nearest_misspelt : FirstNearest "remot" knownKeys "remote" ∧
    distanceTo "remot" "remote" ≤ 2 ∧ 2 < distanceTo "fetch_timeout" "fetch_timeout_ms" := by
  obtain ⟨-, hsome, -⟩ := suggest_nearest "remot"
  obtain ⟨hfirst, hle⟩ := (hsome "remote").mp (by decide +kernel)
  obtain ⟨-, -, hnone⟩ := suggest_nearest "fetch_timeout"
  exact ⟨hfirst, hle, hnone.mp (by decide +kernel) _ (by decide +kernel)⟩

end OnDemand.Config
