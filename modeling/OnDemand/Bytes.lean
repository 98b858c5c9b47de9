/-!
# Bytes

Two contents are the same if their bytes are. Whatever is compared with a payload or a file is
compared this way.
-/

namespace OnDemand

instance decEqBytes : DecidableEq ByteArray := fun a b =>
  decidable_of_iff (a.data = b.data) ⟨ByteArray.ext, congrArg ByteArray.data⟩

end OnDemand
