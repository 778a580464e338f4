import CheckpointRestart.Number.Ratio

/-! # Binary floating point

Bit patterns of the IEEE 754 interchange formats, what they stand for, and arithmetic on them.
Every operation computes the exact result as an integer or a quotient of integers and rounds it
once, to nearest with ties to even. A NaN keeps its sign and payload, made quiet, when it passes
through an operation; an invalid operation on numbers gives the negative default NaN.
-/

namespace CheckpointRestart.Number

/-- A format: the widths of the stored fraction and of the exponent field. -/
structure Format where
  fraction : Nat
  exponent : Nat
  deriving DecidableEq

namespace Format

def single : Format := ⟨23, 8⟩

def double : Format := ⟨52, 11⟩

/-- The number of bits of a significand, the hidden one included. -/
def precision (fmt : Format) : Nat :=
  fmt.fraction + 1

/-- The exponent field of infinities and NaNs. -/
def topExponent (fmt : Format) : Nat :=
  twoPow fmt.exponent - 1

/-- The exponent of the last place of the subnormal numbers. -/
def leastExponent (fmt : Format) : Int :=
  2 - twoPow (fmt.exponent - 1) - fmt.fraction

def signBit (fmt : Format) (negative : Bool) : Nat :=
  if negative then twoPow (fmt.fraction + fmt.exponent) else 0

end Format

/-- What a bit pattern stands for. A finite number is `significand * 2 ^ exponent`. -/
inductive Datum where
  | nan (negative : Bool) (payload : Nat)
  | infinite (negative : Bool)
  | finite (negative : Bool) (significand : Nat) (exponent : Int)
  deriving DecidableEq

namespace Datum

def negative : Datum → Bool
  | nan s _ | infinite s | finite s _ _ => s

end Datum

namespace Format

def decode (fmt : Format) (bits : Nat) : Datum :=
  let fraction := bits % twoPow fmt.fraction
  let field := bits / twoPow fmt.fraction % twoPow fmt.exponent
  let negative := bits / twoPow (fmt.fraction + fmt.exponent) % 2 = 1
  if field = fmt.topExponent then
    if fraction = 0 then .infinite negative else .nan negative fraction
  else if field = 0 then .finite negative fraction fmt.leastExponent
  else .finite negative (twoPow fmt.fraction + fraction) (fmt.leastExponent + field - 1)

def infinity (fmt : Format) (negative : Bool) : Nat :=
  fmt.signBit negative + fmt.topExponent * twoPow fmt.fraction

def zero (fmt : Format) (negative : Bool) : Nat :=
  fmt.signBit negative

/-- The quiet NaN with the given sign and payload. -/
def quietNaN (fmt : Format) (negative : Bool) (payload : Nat) : Nat :=
  let quiet := twoPow (fmt.fraction - 1)
  fmt.infinity negative + quiet + payload % quiet

def invalid (fmt : Format) : Nat :=
  fmt.quietNaN true 0

/-- The exponent `k` with `2 ^ k ≤ num / den < 2 ^ (k + 1)`, for positive arguments. -/
def binaryOrder (num den : Nat) : Int :=
  let e : Int := (num.log2 : Int) - den.log2
  let (up, down) := powerOfTwo e
  if den * up ≤ num * down then e else e - 1

/-- The pattern of the number nearest to `num / den`, an infinity if that is out of range. -/
def roundRatio (fmt : Format) (negative : Bool) (num den : Nat) : Nat :=
  if num = 0 then fmt.zero negative
  else
    let q := max (binaryOrder num den - fmt.fraction) fmt.leastExponent
    let (up, down) := powerOfTwo q
    let m := roundDiv (num * down) (den * up)
    let magnitude :=
      if m < twoPow fmt.fraction then m
      else (q - fmt.leastExponent).toNat * twoPow fmt.fraction + m
    if fmt.topExponent * twoPow fmt.fraction ≤ magnitude then fmt.infinity negative
    else fmt.signBit negative + magnitude

def roundScaled (fmt : Format) (negative : Bool) (significand : Nat) (exponent : Int) : Nat :=
  let (up, down) := powerOfTwo exponent
  fmt.roundRatio negative (significand * up) down

/-- The integer `± significand * 2 ^ (exponent - base)`, for a base below the exponent. -/
def scaledInt (negative : Bool) (significand : Nat) (exponent base : Int) : Int :=
  let magnitude : Int := significand * twoPow (exponent - base).toNat
  if negative then -magnitude else magnitude

def neg (fmt : Format) (bits : Nat) : Nat :=
  if bits / twoPow (fmt.fraction + fmt.exponent) % 2 = 1 then bits - fmt.signBit true
  else bits + fmt.signBit true

/-- Applies `op` unless an operand is a NaN, which is then the result: the first one if both
are. -/
def propagating (fmt : Format) (x y : Nat) (op : Datum → Datum → Nat) : Nat :=
  match fmt.decode x, fmt.decode y with
  | .nan s p, _ => fmt.quietNaN s p
  | _, .nan s p => fmt.quietNaN s p
  | a, b => op a b

def addData (fmt : Format) : Datum → Datum → Nat
  | .infinite s, .infinite t => if s = t then fmt.infinity s else fmt.invalid
  | .infinite s, _ | _, .infinite s => fmt.infinity s
  | .finite s m e, .finite t n f =>
    let base := min e f
    let sum := scaledInt s m e base + scaledInt t n f base
    if sum = 0 then fmt.zero (s && t)
    else fmt.roundScaled (sum < 0) sum.natAbs base
  | _, _ => fmt.invalid

def add (fmt : Format) (x y : Nat) : Nat :=
  fmt.propagating x y fmt.addData

def sub (fmt : Format) (x y : Nat) : Nat :=
  fmt.propagating x y fun a b => match b with
    | .nan s p => fmt.addData a (.nan (!s) p)
    | .infinite s => fmt.addData a (.infinite (!s))
    | .finite s m e => fmt.addData a (.finite (!s) m e)

def mul (fmt : Format) (x y : Nat) : Nat :=
  fmt.propagating x y fun
    | .infinite s, .infinite t => fmt.infinity (s != t)
    | .infinite s, .finite t m _ | .finite s m _, .infinite t =>
      if m = 0 then fmt.invalid else fmt.infinity (s != t)
    | .finite s m e, .finite t n f => fmt.roundScaled (s != t) (m * n) (e + f)
    | _, _ => fmt.invalid

def div (fmt : Format) (x y : Nat) : Nat :=
  fmt.propagating x y fun
    | .infinite _, .infinite _ => fmt.invalid
    | .infinite s, .finite t _ _ => fmt.infinity (s != t)
    | .finite s _ _, .infinite t => fmt.zero (s != t)
    | .finite s m e, .finite t n f =>
      if n = 0 then if m = 0 then fmt.invalid else fmt.infinity (s != t)
      else
        let (up, down) := powerOfTwo (e - f)
        fmt.roundRatio (s != t) (m * up) (n * down)
    | _, _ => fmt.invalid

/-- The exact remainder of truncated division, with the sign of the dividend. -/
def rem (fmt : Format) (x y : Nat) : Nat :=
  fmt.propagating x y fun
    | .infinite _, _ => fmt.invalid
    | .finite _ _ _, .infinite _ => x
    | .finite s m e, .finite _ n f =>
      if n = 0 then fmt.invalid
      else
        let base := min e f
        let r := (m * twoPow (e - base).toNat) % (n * twoPow (f - base).toNat)
        fmt.roundScaled s r base
    | _, _ => fmt.invalid

/-- The order of two numbers, `none` if one is a NaN. The two zeros are equal. -/
def compare? (fmt : Format) (x y : Nat) : Option Ordering :=
  match fmt.decode x, fmt.decode y with
  | .nan _ _, _ | _, .nan _ _ => none
  | .infinite s, .infinite t =>
    some (if s = t then .eq else if s then .lt else .gt)
  | .infinite s, _ => some (if s then .lt else .gt)
  | _, .infinite t => some (if t then .gt else .lt)
  | .finite s m e, .finite t n f =>
    let base := min e f
    some (compare (scaledInt s m e base) (scaledInt t n f base))

def convert (fmt target : Format) (bits : Nat) : Nat :=
  match fmt.decode bits with
  | .nan s p =>
    let payload :=
      if fmt.fraction ≤ target.fraction then p * twoPow (target.fraction - fmt.fraction)
      else p / twoPow (fmt.fraction - target.fraction)
    target.quietNaN s payload
  | .infinite s => target.infinity s
  | .finite s m e => target.roundScaled s m e

def ofInt (fmt : Format) (n : Int) : Nat :=
  fmt.roundScaled (n < 0) n.natAbs 0

/-- The integer part, towards zero, clamped to `lo` and `hi`; zero for a NaN. -/
def toInt (fmt : Format) (lo hi : Int) (bits : Nat) : Int :=
  match fmt.decode bits with
  | .nan _ _ => 0
  | .infinite s => if s then lo else hi
  | .finite s m e =>
    let (up, down) := powerOfTwo e
    let magnitude : Int := (m * up / down : Nat)
    max lo (min hi (if s then -magnitude else magnitude))

end Format

end CheckpointRestart.Number
