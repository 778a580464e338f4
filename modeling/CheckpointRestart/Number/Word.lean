/-! # Machine words

Integers of the language are kept as 64-bit words, sign-extended from their width. Arithmetic is
done on the whole word and the result is extended again, so a value of width `w` always lies in
the two's complement range of `w` bits.
-/

namespace CheckpointRestart.Word

/-- Sign-extends the low `bits` bits of `value`. Widths of zero and of 64 or more leave the word
as it is. -/
def signExtend (value : Int64) (bits : Nat) : Int64 :=
  if bits = 0 ∨ 64 ≤ bits then value
  else Int64.ofInt (value.toInt.bmod (Nat.pow 2 bits))

end CheckpointRestart.Word
