import OnDemand.Digest.Sha256
import OnDemand.Text.Escaped

/-!
# Digests

A payload is identified by the SHA-256 of its bytes, written as 64 hexadecimal digits.
-/

namespace OnDemand

/-- The digest of a payload. -/
structure Digest where
  hex : String
deriving DecidableEq

namespace Digest

/-- Eight hexadecimal digits, most significant first. -/
def wordDigits (w : UInt32) : List Char :=
  (List.range 8).map fun i => Text.hexDigit ((w.toNat >>> (4 * (7 - i))) % 16)

def of (payload : ByteArray) : Digest :=
  ⟨String.ofList ((Sha256.words payload).flatMap wordDigits)⟩

def text (d : Digest) : String :=
  "sha256:" ++ d.hex

/-- The first twelve digits, for display. -/
def short (d : Digest) : String :=
  String.ofList (d.hex.toList.take 12)

end Digest

end OnDemand
