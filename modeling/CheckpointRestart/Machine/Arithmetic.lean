import CheckpointRestart.Machine.Value

/-! # Arithmetic on values

Integer operations work on the whole word and extend the result from the width of the left
operand. Operations on single precision are done in double precision and rounded back.
-/

namespace CheckpointRestart

open Number

inductive ArithmeticFault where
  | divisionByZero
  | operands
  deriving DecidableEq, Repr

namespace BinaryOp

/-- The amount of a shift: the right operand without sign, modulo the width. -/
def shiftAmount (bits : Nat) (b : Int64) : Int64 :=
  .ofNat (b.toUInt64.toNat % max bits 1)

def onWords (op : BinaryOp) (bits : Nat) (a b : Int64) : Except ArithmeticFault Int64 :=
  match op with
  | add => .ok (a + b)
  | sub => .ok (a - b)
  | mul => .ok (a * b)
  | div => if b = 0 then .error .divisionByZero else .ok (a / b)
  | rem => if b = 0 then .error .divisionByZero else .ok (a % b)
  | and => .ok (a &&& b)
  | or => .ok (a ||| b)
  | xor => .ok (a ^^^ b)
  | shl => .ok (a <<< shiftAmount bits b)
  | shr => .ok (a >>> shiftAmount bits b)

def onDoubles (op : BinaryOp) (a b : Nat) : Except ArithmeticFault Nat :=
  match op with
  | add => .ok (Format.double.add a b)
  | sub => .ok (Format.double.sub a b)
  | mul => .ok (Format.double.mul a b)
  | div => .ok (Format.double.div a b)
  | rem => .ok (Format.double.rem a b)
  | _ => .error .operands

def apply (op : BinaryOp) : Value → Value → Except ArithmeticFault Value
  | .int bits a, .int _ b => return .ofInt bits (← op.onWords bits a b)
  | .f64 a, .f64 b => return .f64 (.ofNat (← op.onDoubles a.toNat b.toNat))
  | .f32 a, .f32 b => do
    let widen (x : UInt32) : Nat := Format.single.convert .double x.toNat
    let r ← op.onDoubles (widen a) (widen b)
    return .f32 (.ofNat (Format.double.convert .single r))
  | _, _ => throw .operands

end BinaryOp

namespace Value

/-- The order of two values of the same kind. A NaN is in no order to anything. -/
def order? : Value → Value → Option Ordering
  | int _ a, int _ b => some (compare a.toInt b.toInt)
  | f32 a, f32 b => Format.single.compare? a.toNat b.toNat
  | f64 a, f64 b => Format.double.compare? a.toNat b.toNat
  | ptr p, ptr q => some (p.order q)
  | _, _ => none

/-- The integer part of a float as a word, the nearest word if it does not fit. -/
def truncate (fmt : Format) (pattern : Nat) : Int64 :=
  .ofInt (fmt.toInt Int64.minValue.toInt Int64.maxValue.toInt pattern)

def cast? : Value → Ty → Option Value
  | int _ a, .int width => some (ofInt width a)
  | int _ a, .f32 => some (f32 (.ofNat (Format.single.ofInt a.toInt)))
  | int _ a, .f64 => some (f64 (.ofNat (Format.double.ofInt a.toInt)))
  | int _ a, .ptr _ => some (ptr (.ofBits a.toUInt64))
  | f32 x, .int width => some (ofInt width (truncate .single x.toNat))
  | f64 x, .int width => some (ofInt width (truncate .double x.toNat))
  | f32 x, .f32 => some (f32 x)
  | f32 x, .f64 => some (f64 (.ofNat (Format.single.convert .double x.toNat)))
  | f64 x, .f32 => some (f32 (.ofNat (Format.double.convert .single x.toNat)))
  | f64 x, .f64 => some (f64 x)
  | ptr p, .ptr _ => some (ptr p)
  | ptr p, .int width => some (ofInt width p.toBits.toInt64)
  | _, _ => none

end Value

end CheckpointRestart
