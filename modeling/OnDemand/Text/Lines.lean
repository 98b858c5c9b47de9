import OnDemand.Text.Class

/-!
# Pieces of a text

Cutting a text at a separator, into lines, and trimming it. Everything works on lists of
characters; the `String` forms beside them are for callers.
-/

namespace OnDemand.Text

/-- The pieces between the separators: always one more than there are separators. -/
def pieces (sep : Char → Bool) : List Char → List (List Char)
  | [] => [[]]
  | c :: cs =>
    if sep c then [] :: pieces sep cs
    else match pieces sep cs with
      | [] => [[c]]
      | p :: ps => (c :: p) :: ps

/-- Drops one carriage return at the end of a line that a newline closed. -/
def dropReturn (line : List Char) : List Char :=
  if line.getLast? = some '\r' then line.dropLast else line

/-- The lines of a text. A newline closes a line, so the text after the last one is a line
only if it is not empty; a carriage return before the newline belongs to it. -/
def lines (text : List Char) : List (List Char) :=
  match (pieces (· == '\n') text).reverse with
  | [] => []
  | last :: closed => (closed.reverse.map dropReturn) ++ if last.isEmpty then [] else [last]

/-- A text without the blanks at either end. -/
def trim (text : List Char) : List Char :=
  ((text.dropWhile isBlank).reverse.dropWhile isBlank).reverse

/-- Whether one text occurs in another. -/
def occurs (needle : List Char) : List Char → Bool
  | [] => needle.isEmpty
  | c :: cs => needle.isPrefixOf (c :: cs) || occurs needle cs

end OnDemand.Text

namespace OnDemand

/-- The pieces of a string between separators. -/
def piecesOf (sep : Char → Bool) (s : String) : List String :=
  (Text.pieces sep s.toList).map String.ofList

/-- The lines of a string. -/
def linesOf (s : String) : List String :=
  (Text.lines s.toList).map String.ofList

/-- A string without the blanks at either end. -/
def trimmed (s : String) : String :=
  String.ofList (Text.trim s.toList)

/-- A string of blanks only. -/
def isBlankText (s : String) : Bool :=
  s.toList.all Text.isBlank

end OnDemand

namespace OnDemand.Text

/-! ## Small lemmas -/

theorem pieces_ne_nil (sep : Char → Bool) : ∀ cs, pieces sep cs ≠ []
  | [] => by simp [pieces]
  | c :: cs => by
    simp only [pieces]
    split
    · simp
    · split <;> simp

/-- No piece holds a separator. -/
theorem not_sep_of_mem_pieces (sep : Char → Bool) :
    ∀ cs, ∀ p ∈ pieces sep cs, ∀ c ∈ p, sep c = false
  | [], p, hp, c, hc => by
    simp only [pieces, List.mem_singleton] at hp
    subst hp; cases hc
  | d :: cs, p, hp, c, hc => by
    simp only [pieces] at hp
    split at hp
    · rcases List.mem_cons.mp hp with rfl | hp
      · cases hc
      · exact not_sep_of_mem_pieces sep cs p hp c hc
    · rename_i hd
      have ih := not_sep_of_mem_pieces sep cs
      split at hp
      · rename_i h; exact absurd h (pieces_ne_nil sep cs)
      · rename_i q qs h
        rcases List.mem_cons.mp hp with rfl | hp
        · rcases List.mem_cons.mp hc with rfl | hc
          · simpa using hd
          · exact ih q (by rw [h]; simp) c hc
        · exact ih p (by rw [h]; simp [hp]) c hc

/-- A text without separators is one piece. -/
theorem pieces_eq_singleton (sep : Char → Bool) :
    ∀ cs : List Char, (∀ c ∈ cs, sep c = false) → pieces sep cs = [cs]
  | [], _ => rfl
  | c :: cs, h => by
    have hc : sep c = false := h c (by simp)
    simp [pieces, hc, pieces_eq_singleton sep cs fun d hd => h d (by simp [hd])]

end OnDemand.Text
