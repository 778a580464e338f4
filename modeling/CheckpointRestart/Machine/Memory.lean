import CheckpointRestart.Machine.Error

/-! # Memory

Memory is a list of allocations, each an array of bytes. Freed allocations stay in the list, so
that their numbers are not used again.
-/

namespace CheckpointRestart

structure Allocation where
  bytes : Array UInt8
  live : Bool
  deriving DecidableEq, Repr, Inhabited

structure Memory where
  allocations : Array Allocation
  deriving DecidableEq, Repr

namespace Memory

/-- Memory with only the allocation of null pointers, which is never live. -/
def empty : Memory :=
  ⟨#[⟨#[], false⟩]⟩

instance : Inhabited Memory := ⟨empty⟩

def allocate (m : Memory) (size : Nat) : Pointer × Memory :=
  (⟨.ofNat m.allocations.size, 0⟩, ⟨m.allocations.push ⟨Array.replicate size 0, true⟩⟩)

def live (m : Memory) (p : Pointer) : Except MemoryFault Allocation :=
  if p.isNull then .error .nullDereference
  else match m.allocations[p.allocation.toNat]? with
    | none => .error (.wild p)
    | some a => if a.live then .ok a else .error (.useAfterFree p)

/-- Ends the life of an allocation, given a pointer to its start. Freeing null does nothing. -/
def free (m : Memory) (p : Pointer) : Except MemoryFault Memory := do
  if p.isNull then
    return m
  let _ ← m.live p
  if p.offset ≠ 0 then
    throw (.interiorFree p)
  return ⟨m.allocations.modify p.allocation.toNat fun a => { a with live := false }⟩

/-- A live allocation and a place in it, at most at its end. -/
def locate (m : Memory) (p : Pointer) : Except MemoryFault (Allocation × Nat) := do
  let a ← m.live p
  if p.offset < 0 ∨ a.bytes.size < p.offset.toNatClampNeg then
    throw (.outOfBounds p)
  return (a, p.offset.toNatClampNeg)

/-- As `locate`, but with room for `length` bytes. -/
def locateRange (m : Memory) (p : Pointer) (length : Nat) :
    Except MemoryFault (Allocation × Nat) := do
  let (a, start) ← m.locate p
  if a.bytes.size < start + length then
    throw (.access length p)
  return (a, start)

def checkRange (m : Memory) (p : Pointer) (length : Nat) : Except MemoryFault Unit := do
  let _ ← m.locateRange p length

def read (m : Memory) (p : Pointer) (length : Nat) : Except MemoryFault Bytes := do
  let (a, start) ← m.locateRange p length
  return (a.bytes.extract start (start + length)).toList

/-- The bytes from a pointer to the end of its allocation. -/
def tail (m : Memory) (p : Pointer) : Except MemoryFault Bytes := do
  let (a, start) ← m.locate p
  return (a.bytes.extract start a.bytes.size).toList

def overwrite (bytes : Array UInt8) (start : Nat) : Bytes → Array UInt8
  | [] => bytes
  | b :: rest => overwrite (bytes.setIfInBounds start b) (start + 1) rest

def put (m : Memory) (p : Pointer) (bytes : Bytes) : Memory :=
  ⟨m.allocations.modify p.allocation.toNat fun a =>
    { a with bytes := overwrite a.bytes p.offset.toNatClampNeg bytes }⟩

def write (m : Memory) (p : Pointer) (bytes : Bytes) : Except MemoryFault Memory := do
  m.checkRange p bytes.length
  return m.put p bytes

end Memory

end CheckpointRestart
