import CheckpointRestart.Text.Affix
import CheckpointRestart.Text.Decimal

/-! # Types

Integers have a width of 1 to 64 bits, pointers are 64 bits wide whatever they point to. A value
occupies whole bytes in memory.
-/

namespace CheckpointRestart

/-- A first-class type. -/
inductive Ty where
  | void
  | int (bits : Nat)
  | f32
  | f64
  | ptr (pointee : Ty)
  deriving DecidableEq, Repr, Inhabited

namespace Ty

def i64 : Ty := int 64

/-- The untyped byte pointer of heap allocations. -/
def bytePtr : Ty := ptr (int 8)

def isVoid : Ty → Bool
  | void => true
  | _ => false

def isInt : Ty → Bool
  | int _ => true
  | _ => false

def isFloat : Ty → Bool
  | f32 | f64 => true
  | _ => false

def isPointer : Ty → Bool
  | ptr _ => true
  | _ => false

def pointee? : Ty → Option Ty
  | ptr t => some t
  | _ => none

def bitWidth : Ty → Nat
  | void => 0
  | int bits => bits
  | f32 => 32
  | f64 => 64
  | ptr _ => 64

def storeSize (t : Ty) : Nat :=
  (t.bitWidth + 7) / 8

def storeBits (t : Ty) : Nat :=
  t.storeSize * 8

def render : Ty → String
  | void => "void"
  | int bits => "i" ++ toString bits
  | f32 => "f32"
  | f64 => "f64"
  | ptr t => "ptr<" ++ t.render ++ ">"

instance : ToString Ty := ⟨render⟩

/-- The type of a pointer to a pointer and so on, that many times, to a `t`. -/
def layered (t : Ty) : (layers : Nat) → Ty
  | 0 => t
  | layers + 1 => (ptr t).layered layers

open Text in
/-- Counts the pointer layers that open at the start of a text, on top of `layers`, and gives the
text behind them. -/
def openings (layers : Nat) (s : List Char) : Nat × List Char :=
  match h : dropStart? ['p', 't', 'r', '<'] (trimStart s) with
  | some rest => openings (layers + 1) rest
  | none => (layers, s)
termination_by s.length
decreasing_by
  have whole := length_of_dropStart? h
  have trimmed := length_trimStart_le s
  simp only [List.length_cons, List.length_nil] at whole
  omega

/-- Takes the ends of that many pointer layers from a text, which is given backwards. -/
def closings? : (layers : Nat) → (backwards : List Char) → Option (List Char)
  | 0, s => some s
  | layers + 1, s =>
    match Text.trimStart s with
    | '>' :: rest => closings? layers rest
    | _ => none

open Text in
def readScalar? (s : List Char) : Option Ty :=
  if s = "void".toList then some void
  else if s = "f32".toList then some f32
  else if s = "f64".toList then some f64
  else (afterStart? "i" s).bind fun digits =>
    ((unsigned? 65 digits).filter (1 ≤ ·)).map int

/-- Reads a type, ignoring white space around it and around each pointee. Nothing points to
`void`. -/
def read? (s : List Char) : Option Ty := do
  let (layers, rest) := openings 0 s
  let core ← closings? layers rest.reverse
  let t ← readScalar? (Text.trim core.reverse)
  if t.isVoid ∧ 0 < layers then none else some (t.layered layers)

def readValue? (s : List Char) : Option Ty :=
  (read? s).filter (!·.isVoid)

end Ty

end CheckpointRestart
