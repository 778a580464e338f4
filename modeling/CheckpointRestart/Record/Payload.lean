import CheckpointRestart.Record.Error
import CheckpointRestart.Storage.Basic

/-! # Payloads

The payload of an entry holds its elements without gaps between them: `width * count` bits, filled
up to whole bytes.
-/

namespace CheckpointRestart

/-- The number of bytes that hold `count` elements of `width` bits. The number of bits, rounded up
to whole bytes, must be a 64-bit number. -/
def payloadSize (width count : UInt64) : Except FormatError Nat :=
  let bits := width.toNat * count.toNat + 7
  if bits < UInt64.size then .ok (bits / 8) else .error (.sizeOverflow width count)

/-- The first `bits` bits from `new` and the others from `old`. -/
def mergeBits (bits : Nat) (old new : UInt8) : UInt8 :=
  let mask := (0xff : UInt8) <<< .ofNat bits
  (old &&& mask) ||| (new &&& ~~~mask)

/-- Replaces the first `bits` bits of `dest` by those of `payload`. Both must be long enough. -/
def restorePayload (dest payload : Bytes) (bits : Nat) : Option Bytes :=
  let full := bits / 8
  if dest.length < (bits + 7) / 8 ∨ payload.length < (bits + 7) / 8 then none
  else
    let rest := match bits % 8, dest.drop full, payload.drop full with
      | 0, old, _ => old
      | n + 1, old :: more, new :: _ => mergeBits (n + 1) old new :: more
      | _, old, _ => old
    some (payload.take full ++ rest)

end CheckpointRestart
