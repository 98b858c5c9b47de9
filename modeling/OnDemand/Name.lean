import OnDemand.Text.Escaped
import OnDemand.Text.Lines

/-!
# Qualified names

A name is one or more non-empty segments with a `/` or a `.` between neighbours, and holds neither
white space nor control characters. The separators are kept, so two names may have the same
segments and still differ. `Name.parse` reads a name and says why a text is none.
-/

namespace OnDemand

namespace Name

/-- The characters between the segments of a name. -/
def isSeparator (c : Char) : Bool :=
  c == '/' || c == '.'

/-- The characters no name holds. -/
def isForbidden (c : Char) : Bool :=
  Text.isBlank c || Text.isControl c

/-- The segments of a text. -/
def segmentsOf (text : String) : List String :=
  piecesOf isSeparator text

/-- What makes a text a name. -/
def WellFormed (text : String) : Prop :=
  (∀ c ∈ text.toList, isForbidden c = false) ∧ ∀ s ∈ segmentsOf text, s ≠ ""

instance (text : String) : Decidable (WellFormed text) :=
  have := List.decidableBAll (isForbidden · = false) text.toList
  inferInstanceAs (Decidable (_ ∧ _))

end Name

/-- A qualified name. -/
structure Name where
  text : String
  wellFormed : Name.WellFormed text
deriving DecidableEq

/-- Why a text is not a name. -/
inductive NameError where
  | empty
  | invalidCharacter (name : String) (ch : Char)
  | invalidSegment (name : String)
deriving DecidableEq

namespace NameError

def message : NameError → String
  | empty => "qualified name is empty"
  | invalidCharacter name ch =>
    "qualified name '" ++ name ++ "' contains invalid character " ++ Text.quoteChar ch
  | invalidSegment name =>
    "qualified name '" ++ name ++ "' contains an empty or traversal segment"

end NameError

namespace Name

/-- Reads a name. The first forbidden character is reported before any empty segment. -/
def parse (text : String) : Except NameError Name :=
  if text = "" then .error .empty
  else match text.toList.find? isForbidden with
    | some ch => .error (.invalidCharacter text ch)
    | none =>
      if h : WellFormed text then .ok ⟨text, h⟩ else .error (.invalidSegment text)

/-- The name with a given text, if it is one. -/
def parse? (text : String) : Option Name :=
  (parse text).toOption

def segments (n : Name) : List String :=
  segmentsOf n.text

/-- Whether the text of a name begins with another text. -/
def startsWith (n : Name) (start : String) : Bool :=
  start.toList.isPrefixOf n.text.toList

instance : LT Name := ⟨fun a b => a.text < b.text⟩

instance (a b : Name) : Decidable (a < b) :=
  inferInstanceAs (Decidable (a.text < b.text))

instance : ToString Name := ⟨Name.text⟩

/-- The names of a list in order of first occurrence. -/
def distinct : List Name → List Name
  | [] => []
  | n :: ns => n :: (distinct ns).filter (· ≠ n)

/-! ## Small lemmas -/

@[ext]
theorem eq_of_text_eq : ∀ {a b : Name}, a.text = b.text → a = b
  | ⟨_, _⟩, ⟨_, _⟩, h => by cases h; rfl

theorem segments_ne_nil (n : Name) : n.segments ≠ [] := by
  simp [segments, segmentsOf, piecesOf, Text.pieces_ne_nil]

theorem ne_empty_of_mem_segments {n : Name} {s : String} (h : s ∈ n.segments) : s ≠ "" :=
  n.wellFormed.2 s h

theorem mem_distinct {n : Name} : ∀ {l : List Name}, n ∈ distinct l ↔ n ∈ l
  | [] => by simp [distinct]
  | m :: ms => by
    rw [distinct, List.mem_cons, List.mem_cons, List.mem_filter, mem_distinct]
    by_cases h : n = m <;> simp [h]

theorem nodup_distinct : ∀ l : List Name, (distinct l).Nodup
  | [] => List.nodup_nil
  | m :: ms => by
    rw [distinct, List.nodup_cons]
    exact ⟨by simp, (nodup_distinct ms).filter _⟩

end Name

end OnDemand
