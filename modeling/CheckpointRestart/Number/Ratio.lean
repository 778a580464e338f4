/-! # Rounding quotients

The one rounding rule of the project: to the nearest integer, a half going to the even
neighbour.
-/

namespace CheckpointRestart.Number

/-- The integer nearest to `num / den`; a half goes to the even neighbour. -/
def roundDiv (num den : Nat) : Nat :=
  let q := num / den
  let twice := 2 * (num % den)
  if den < twice ∨ (twice = den ∧ q % 2 = 1) then q + 1 else q

def twoPow (n : Nat) : Nat :=
  Nat.pow 2 n

/-- `2 ^ e` as a numerator and a denominator. -/
def powerOfTwo (e : Int) : Nat × Nat :=
  if 0 ≤ e then (twoPow e.toNat, 1) else (1, twoPow (-e).toNat)

/-- `10 ^ e` as a numerator and a denominator. -/
def powerOfTen (e : Int) : Nat × Nat :=
  if 0 ≤ e then (Nat.pow 10 e.toNat, 1) else (1, Nat.pow 10 (-e).toNat)

def digitCount (n : Nat) : Nat :=
  (Nat.toDigits 10 n).length

end CheckpointRestart.Number
