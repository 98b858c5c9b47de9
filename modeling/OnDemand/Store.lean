import OnDemand.Error

/-!
# The artifact store

A store keeps one artifact per name, in ascending order of names. An artifact, once stored, stays:
putting another with the same payload changes nothing, and putting one with another payload is
refused. `putAll` stores a list in one step or not at all.
-/

namespace OnDemand

/-- Adds an artifact to an ascending list that has none of its name. -/
def insertArtifact (a : Artifact) : List Artifact → List Artifact
  | [] => [a]
  | b :: bs => if a.name < b.name then a :: b :: bs else
      if b.name < a.name then b :: insertArtifact a bs else b :: bs

theorem mem_insertArtifact {a x : Artifact} : ∀ {l : List Artifact},
    x ∈ insertArtifact a l → x = a ∨ x ∈ l
  | [] => by simp [insertArtifact]
  | b :: bs => by
    simp only [insertArtifact]
    split
    · simp
    · split
      · intro h
        rcases List.mem_cons.mp h with rfl | h
        · exact Or.inr (by simp)
        · rcases mem_insertArtifact h with rfl | h
          · exact Or.inl rfl
          · exact Or.inr (by simp [h])
      · exact Or.inr

theorem pairwise_insertArtifact {a : Artifact} : ∀ {l : List Artifact},
    l.Pairwise (·.name < ·.name) → (insertArtifact a l).Pairwise (·.name < ·.name)
  | [], _ => by simp [insertArtifact]
  | b :: bs, h => by
    obtain ⟨hb, hs⟩ := List.pairwise_cons.mp h
    simp only [insertArtifact]
    split
    · rename_i ha
      refine List.pairwise_cons.mpr ⟨fun z hz => ?_, h⟩
      rcases List.mem_cons.mp hz with rfl | hz
      · exact ha
      · exact String.lt_trans ha (hb z hz)
    · split
      · rename_i ha
        refine List.pairwise_cons.mpr ⟨fun z hz => ?_, pairwise_insertArtifact hs⟩
        rcases mem_insertArtifact hz with rfl | hz
        · exact ha
        · exact hb z hz
      · exact h

/-- What `put` did. -/
inductive PutOutcome where
  | inserted
  | unchanged
deriving DecidableEq

/-- A store of artifacts. -/
structure Store where
  artifacts : List Artifact
  ascending : artifacts.Pairwise (·.name < ·.name)
deriving DecidableEq

namespace Store

def empty : Store := ⟨[], List.Pairwise.nil⟩

instance : Inhabited Store := ⟨empty⟩

def get? (s : Store) (n : Name) : Option Artifact :=
  s.artifacts.find? (·.name = n)

def contains (s : Store) (n : Name) : Bool :=
  (s.get? n).isSome

def names (s : Store) : List Name :=
  s.artifacts.map (·.name)

def size (s : Store) : Nat :=
  s.artifacts.length

/-- Adds an artifact whose name is not stored. -/
def insert (s : Store) (a : Artifact) : Store :=
  ⟨insertArtifact a s.artifacts, pairwise_insertArtifact s.ascending⟩

/-- Adds artifacts one after the other. -/
def insertAll (s : Store) (as : List Artifact) : Store :=
  as.foldl insert s

/-- What storing an artifact would do beside one of its name. -/
def judge (existing : Option Artifact) (a : Artifact) : Except CallError PutOutcome :=
  match existing with
  | none => .ok .inserted
  | some b =>
    if b.payload = a.payload then .ok .unchanged
    else .error (.consistency a.name b.digest a.digest)

/-- Stores one artifact. -/
def put (s : Store) (a : Artifact) : Except CallError (PutOutcome × Store) :=
  match judge (s.get? a.name) a with
  | .ok .inserted => .ok (.inserted, s.insert a)
  | .ok .unchanged => .ok (.unchanged, s)
  | .error e => .error e

/-- The artifacts of a list that a store lacks, the first of each name, unless one of the list has
another payload than the artifact stored, or listed before it, under its name. -/
def lacking (s : Store) (pending : Store) : List Artifact → Except CallError Store
  | [] => .ok pending
  | a :: as =>
    match judge ((s.get? a.name).or (pending.get? a.name)) a with
    | .ok .inserted => lacking s (pending.insert a) as
    | .ok .unchanged => lacking s pending as
    | .error e => .error e

/-- Stores a list of artifacts in one step and tells the new names in order, or changes nothing. -/
def putAll (s : Store) (as : List Artifact) : Except CallError (List Name × Store) :=
  match s.lacking empty as with
  | .ok pending => .ok (pending.names, s.insertAll pending.artifacts)
  | .error e => .error e

end Store

end OnDemand
