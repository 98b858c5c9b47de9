/-!
# Text from any bytes

Bytes read as UTF-8, with U+FFFD in the place of each longest beginning of a character that is not
continued, and of each byte that begins none.
-/

namespace OnDemand.Text

/-- The least and the greatest second byte of a character, and how many bytes follow its first. -/
def lead? (b : UInt8) : Option (Nat × Nat × Nat) :=
  let n := b.toNat
  if 0xc2 ≤ n && n ≤ 0xdf then some (0x80, 0xbf, 1)
  else if n == 0xe0 then some (0xa0, 0xbf, 2)
  else if n == 0xed then some (0x80, 0x9f, 2)
  else if 0xe1 ≤ n && n ≤ 0xef then some (0x80, 0xbf, 2)
  else if n == 0xf0 then some (0x90, 0xbf, 3)
  else if 0xf1 ≤ n && n ≤ 0xf3 then some (0x80, 0xbf, 3)
  else if n == 0xf4 then some (0x80, 0x8f, 3)
  else none

/-- The bytes that continue a character, at most as many as it needs. -/
def continuation (least greatest : Nat) : Nat → List UInt8 → List UInt8
  | need + 1, b :: bs =>
    if least ≤ b.toNat ∧ b.toNat ≤ greatest then b :: continuation 0x80 0xbf need bs else []
  | _, _ => []

/-- The number of a character from its first byte and those that follow. -/
def codePoint (first : UInt8) (rest : List UInt8) : Nat :=
  rest.foldl (fun n b => n * 64 + b.toNat % 64) (first.toNat % 1 <<< (6 - rest.length))

def lossyChars : List UInt8 → List Char
  | [] => []
  | b :: bs =>
    match lead? b with
    | none => (if b < 0x80 then Char.ofNat b.toNat else '\ufffd') :: lossyChars bs
    | some (least, greatest, need) =>
      let rest := continuation least greatest need bs
      (if rest.length = need then Char.ofNat (codePoint b rest) else '\ufffd') ::
        lossyChars (bs.drop rest.length)
termination_by bs => bs.length
decreasing_by all_goals simp only [List.length_drop, List.length_cons]; omega

/-- The text of bytes that may not be UTF-8. -/
def lossy (bytes : ByteArray) : String :=
  String.ofList (lossyChars bytes.toList)

end OnDemand.Text
