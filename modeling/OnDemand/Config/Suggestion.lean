/-!
# Suggestions for misspelt keys

The known key nearest to an unknown one, where they differ by at most two bytes put in, left out or
replaced.
-/

namespace OnDemand.Config

/-! ## Edit distance

The distances from a text to all beginnings of another make up a row; each further byte of the
first text gives the next row. -/

/-- The rest of a row, from the distances up to the left of it, above, and to the left. -/
def fillRow (a : UInt8) : List UInt8 → Nat → List Nat → Nat → List Nat
  | b :: bs, corner, up :: ups, left =>
    let d := min (min (up + 1) (left + 1)) (corner + if a = b then 0 else 1)
    d :: fillRow a bs up ups d
  | _, _, _, _ => []

/-- The row after a further byte. -/
def nextRow (bs : List UInt8) (row : List Nat) (a : UInt8) : List Nat :=
  match row with
  | [] => []
  | d :: ups => (d + 1) :: fillRow a bs d ups (d + 1)

/-- How many bytes must be put in, left out or replaced to make one text from another. -/
def editDistance (as bs : List UInt8) : Nat :=
  (as.foldl (nextRow bs) (List.range (bs.length + 1))).getLastD 0

/-! ## Nearest key -/

/-- The keys of sections and settings, in the order in which they are considered. -/
def knownKeys : List String :=
  ["namespace", "remote", "platform", "source", "root", "extension", "strip_prefix", "backend",
    "program", "args", "processor_flag", "output_flag", "link_flag", "source_extension",
    "artifact_extension", "separator", "concurrent", "limits", "fetch_timeout_ms",
    "compile_timeout_ms", "failures", "ttl_secs", "processors", "builtin", "store", "dir"]

def distanceTo (key known : String) : Nat :=
  editDistance key.toUTF8.toList known.toUTF8.toList

/-- The first of some candidates at the least distance, with it. -/
def nearest (key : String) : List String → Option (String × Nat)
  | [] => none
  | k :: ks =>
    match nearest key ks with
    | none => some (k, distanceTo key k)
    | some (best, d) => if distanceTo key k ≤ d then some (k, distanceTo key k) else some (best, d)

/-- The known key that an unknown one may have been meant for. -/
def suggest (key : String) : Option String :=
  match nearest key knownKeys with
  | some (best, d) => if d ≤ 2 then some best else none
  | none => none

end OnDemand.Config
