import CheckpointRestart.Number.Shortest
import CheckpointRestart.Text.Decimal

/-! # The text of floating point numbers

Reading is exact: the decimal is rounded once, straight to the format asked for. Writing uses the
shortest digits in one of two layouts, one for program text and one for printed output.
-/

namespace CheckpointRestart.Number

open CheckpointRestart.Text

/-- A number as written, before it is rounded to a format. -/
inductive Literal where
  | nan (negative : Bool)
  | infinite (negative : Bool)
  | finite (negative : Bool) (value : Decimal)
  deriving DecidableEq

namespace Literal

/-- An exponent part: nothing, or `e` with an optional sign and at least one digit. -/
def exponent? : List Char → Option Int
  | [] => some 0
  | 'e' :: rest | 'E' :: rest =>
    match rest with
    | '-' :: ds => (digits? ds).map fun n => -(n : Int)
    | '+' :: ds => (digits? ds).map fun n => (n : Int)
    | ds => (digits? ds).map fun n => (n : Int)
  | _ => none

/-- Digits with an optional point and an optional exponent; at least one digit must stand before
the exponent. -/
def decimal? (s : List Char) : Option Decimal :=
  let whole := s.takeWhile Char.isDigit
  let rest := s.dropWhile Char.isDigit
  let (fraction, tail) := match rest with
    | '.' :: rest => (rest.takeWhile Char.isDigit, rest.dropWhile Char.isDigit)
    | _ => ([], rest)
  do
    let digits ← digits? (whole ++ fraction)
    let exponent ← exponent? tail
    return ⟨digits, exponent - fraction.length⟩

/-- An unsigned number, infinity or NaN; the words are read in any case. -/
def unsigned? (negative : Bool) (s : List Char) : Option Literal :=
  match decimal? s with
  | some d => some (.finite negative d)
  | none =>
    let word := s.map Char.toLower
    if word = "inf".toList ∨ word = "infinity".toList then some (.infinite negative)
    else if word = "nan".toList then some (.nan negative)
    else none

def read? : List Char → Option Literal
  | '-' :: rest => unsigned? true rest
  | '+' :: rest => unsigned? false rest
  | s => unsigned? false s

/-- The bit pattern nearest to the literal. Decimals beyond every format's range are settled by
their order of magnitude alone. -/
def toBits (fmt : Format) : Literal → Nat
  | nan s => fmt.quietNaN s 0
  | infinite s => fmt.infinity s
  | finite s d =>
    let order : Int := digitCount d.digits + d.exponent
    if d.digits = 0 ∨ order < -400 then fmt.zero s
    else if 400 < order then fmt.infinity s
    else
      let (up, down) := powerOfTen d.exponent
      fmt.roundRatio s (d.digits * up) down

end Literal

/-- How finite numbers are laid out. -/
structure Layout where
  /-- Whether a number whose first digit has this decimal order is written with an exponent. -/
  scientific : Int → Bool
  /-- Whether a whole number is written with a point and a zero. -/
  point : Bool

namespace Layout

/-- Program text: an exponent below `10 ^ -4` and from `10 ^ 16` on, and always a point
otherwise. -/
def source : Layout where
  scientific order := order < -4 || 16 ≤ order
  point := true

/-- Printed output: never an exponent, and a point only where there is a fraction. -/
def output : Layout where
  scientific _ := false
  point := false

def zeros (n : Nat) : String :=
  String.ofList (List.replicate n '0')

/-- A decimal without trailing zeros, in positional notation. -/
def positional (layout : Layout) (d : Decimal) : String :=
  let digits := Nat.toDigits 10 d.digits
  if 0 ≤ d.exponent then
    let whole := String.ofList digits ++ zeros (if d.digits = 0 then 0 else d.exponent.toNat)
    if layout.point then whole ++ ".0" else whole
  else
    let places := (-d.exponent).toNat
    if places < digits.length then
      String.ofList (digits.take (digits.length - places)) ++ "." ++
        String.ofList (digits.drop (digits.length - places))
    else "0." ++ zeros (places - digits.length) ++ String.ofList digits

/-- A decimal without trailing zeros, as one digit, its fraction and an exponent. -/
def exponential (d : Decimal) : String :=
  let digits := Nat.toDigits 10 d.digits
  let order := d.exponent + digits.length - 1
  let fraction := digits.drop 1
  String.ofList (digits.take 1) ++
    (if fraction.isEmpty then "" else "." ++ String.ofList fraction) ++ "e" ++ toString order

def render (layout : Layout) (fmt : Format) (bits : Nat) : String :=
  match fmt.decode bits with
  | .nan _ _ => "NaN"
  | .infinite s => if s then "-inf" else "inf"
  | .finite s m e =>
    let d := if m = 0 then ⟨0, 0⟩ else shortestDecimal fmt m e
    let order := d.exponent + digitCount d.digits - 1
    let body :=
      if m ≠ 0 && layout.scientific order then exponential d else layout.positional d
    if s then "-" ++ body else body

end Layout

end CheckpointRestart.Number
