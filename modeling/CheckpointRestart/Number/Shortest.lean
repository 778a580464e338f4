import CheckpointRestart.Number.Binary

/-! # The fewest digits that read back

A positive binary number stands for an interval of reals, those that round to it. The digits
chosen are the fewest whose decimal lies in that interval; of two such decimals the nearer one,
and the larger one if both are equally near.
-/

namespace CheckpointRestart.Number

/-- A decimal `digits * 10 ^ exponent`. -/
structure Decimal where
  digits : Nat
  exponent : Int
  deriving DecidableEq

/-- The exponent `k` with `10 ^ k ≤ num / den < 10 ^ (k + 1)`, for positive arguments. -/
def decimalOrder (num den : Nat) : Int :=
  let k : Int := (digitCount num : Int) - digitCount den
  let (up, down) := powerOfTen k
  if den * up ≤ num * down then k else k - 1

/-- A value with the interval of reals that round to it, over one denominator. -/
structure Rounding where
  low : Nat
  value : Nat
  high : Nat
  den : Nat
  /-- Whether the ends of the interval round to the value as well. -/
  closed : Bool

namespace Rounding

/-- Whether `n / d` lies in the interval. -/
def admits (r : Rounding) (n d : Nat) : Bool :=
  let low := r.low * d
  let high := r.high * d
  let x := n * r.den
  if r.closed then low ≤ x && x ≤ high else low < x && x < high

/-- The interval of `significand * 2 ^ exponent`. Below a power of two the gap is half as wide. -/
def ofBinary (fmt : Format) (significand : Nat) (exponent : Int) : Rounding :=
  let (up, down) := powerOfTwo (exponent - 2)
  let narrow := significand = twoPow fmt.fraction ∧ fmt.leastExponent < exponent
  { low := (4 * significand - if narrow then 1 else 2) * up
    value := 4 * significand * up
    high := (4 * significand + 2) * up
    den := down
    closed := significand % 2 = 0 }

/-- The decimal with the given last place that the interval admits: the nearer of the two
neighbours of the value, the upper one if they are equally near. -/
def onGrid? (r : Rounding) (place : Int) : Option Decimal :=
  let (up, down) := powerOfTen place
  let below := r.value * down / (r.den * up)
  let above := below + 1
  let rest := r.value * down - below * (r.den * up)
  let upper := r.den * up ≤ 2 * rest
  match r.admits (below * up) down, r.admits (above * up) down with
  | true, true => some ⟨if upper then above else below, place⟩
  | true, false => some ⟨below, place⟩
  | false, true => some ⟨above, place⟩
  | false, false => none

/-- The admitted decimal with the fewest digits, looked for on ever finer grids. -/
def shortest (r : Rounding) : Decimal :=
  let order := decimalOrder r.value r.den
  let grids := (List.range 18).map fun (n : Nat) => order - n
  (grids.findSome? r.onGrid?).getD ⟨0, 0⟩

end Rounding

namespace Decimal

/-- Drops trailing zeros from `digits`, at most `fuel` of them. -/
def stripZeros : Nat → Decimal → Decimal
  | 0, d => d
  | fuel + 1, d =>
    if d.digits % 10 = 0 then stripZeros fuel ⟨d.digits / 10, d.exponent + 1⟩ else d

/-- The same decimal without trailing zeros. -/
def normalize (d : Decimal) : Decimal :=
  if d.digits = 0 then ⟨0, 0⟩ else stripZeros (digitCount d.digits) d

end Decimal

/-- The shortest decimal that reads back as the positive number `significand * 2 ^ exponent`. -/
def shortestDecimal (fmt : Format) (significand : Nat) (exponent : Int) : Decimal :=
  (Rounding.ofBinary fmt significand exponent).shortest.normalize

end CheckpointRestart.Number
