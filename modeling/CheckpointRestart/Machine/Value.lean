import CheckpointRestart.Number.Literal
import CheckpointRestart.Program.Instruction
import CheckpointRestart.Storage.Basic

/-! # Values of a running program

A pointer names an allocation and a byte offset in it, so that it never leaves its allocation
unnoticed. In memory a value is its bit pattern, the least significant byte first; a pointer keeps
the low half of its offset there.
-/

namespace CheckpointRestart

/-- An address. Allocation 0 is that of null pointers. -/
structure Pointer where
  allocation : UInt32
  offset : Int64
  deriving DecidableEq, Repr, Inhabited

namespace Pointer

def null : Pointer :=
  ⟨0, 0⟩

def isNull (p : Pointer) : Bool :=
  p.allocation == 0

/-- The form in memory: the allocation above the low 32 bits of the offset. -/
def toBits (p : Pointer) : UInt64 :=
  p.allocation.toUInt64 <<< 32 ||| p.offset.toInt32.toUInt32.toUInt64

/-- The pointer in memory; its offset is extended with its sign. -/
def ofBits (bits : UInt64) : Pointer :=
  ⟨(bits >>> 32).toUInt32, bits.toUInt32.toInt32.toInt64⟩

def add (p : Pointer) (bytes : Int64) : Pointer :=
  { p with offset := p.offset + bytes }

/-- Pointers are ordered by allocation, then by offset. -/
def order (p q : Pointer) : Ordering :=
  (compare p.allocation.toNat q.allocation.toNat).then (compare p.offset.toInt q.offset.toInt)

def describe (p : Pointer) : String :=
  "Pointer \x7b alloc: " ++ toString p.allocation.toNat ++ ", offset: " ++
    toString p.offset.toInt ++ " \x7d"

end Pointer

/-- A value. Integers are kept sign-extended from their width, floats as their bit patterns. -/
inductive Value where
  | int (bits : Nat) (value : Int64)
  | f32 (pattern : UInt32)
  | f64 (pattern : UInt64)
  | ptr (pointer : Pointer)
  deriving DecidableEq, Repr, Inhabited

namespace Value

/-- The integer of the given width that agrees with `value` on its low bits. -/
def ofInt (bits : Nat) (value : Int64) : Value :=
  int bits (Word.signExtend value bits)

def ofBool (b : Bool) : Value :=
  ofInt 1 (if b then 1 else 0)

def ofConstant : Constant → Value
  | .int bits value => ofInt bits value
  | .f32 pattern => f32 pattern
  | .f64 pattern => f64 pattern
  | .null _ => ptr .null

def int? : Value → Option Int64
  | int _ value => some value
  | _ => none

/-- The value as a size, which is an integer that is not negative. -/
def size? (v : Value) : Option UInt64 :=
  (v.int?.filter (0 ≤ ·)).map Int64.toUInt64

def pointer? : Value → Option Pointer
  | ptr p => some p
  | _ => none

def toBits : Value → UInt64
  | int _ value => value.toUInt64
  | f32 pattern => pattern.toUInt64
  | f64 pattern => pattern
  | ptr p => p.toBits

/-- The value of a type that has the given bits; there is none of type `void`. -/
def ofBits? (bits : UInt64) : Ty → Option Value
  | .int width => some (ofInt width bits.toInt64)
  | .f32 => some (f32 bits.toUInt32)
  | .f64 => some (f64 bits)
  | .ptr _ => some (ptr (.ofBits bits))
  | .void => none

/-- The `size` low bytes of a word, the lowest first. -/
def bytesOf : (size : Nat) → UInt64 → Bytes
  | 0, _ => []
  | size + 1, bits => bits.toUInt8 :: bytesOf size (bits >>> 8)

/-- The word that has the given low bytes, the lowest first. -/
def wordOf : Bytes → UInt64
  | [] => 0
  | b :: rest => b.toUInt64 ||| wordOf rest <<< 8

def encode (size : Nat) (v : Value) : Bytes :=
  bytesOf (min size 8) v.toBits

def decode? (bytes : Bytes) (t : Ty) : Option Value :=
  ofBits? (wordOf (bytes.take 8)) t

open Number in
/-- The text of a value in printed output. A single bit is 0 or 1. -/
def render : Value → String
  | int bits value => toString (if bits = 1 then value.toInt % 2 else value.toInt)
  | f32 pattern => Layout.output.render .single pattern.toNat
  | f64 pattern => Layout.output.render .double pattern.toNat
  | ptr p =>
    if p.isNull then "null"
    else "@" ++ toString p.allocation.toNat ++ "+" ++ toString p.offset.toInt

end Value

end CheckpointRestart
