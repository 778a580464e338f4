import CheckpointRestart.Program.Function

/-! # Spill slots

Saving a scalar needs an address, so it is stored to a stack slot of its type first. A released
slot is handed out again by the next request for its type, the one released last first. Slots get
their defining instructions only in the end.
-/

namespace CheckpointRestart

structure Slots where
  /-- Released slots, the last one first. -/
  free : List (Ty × ValueId)
  /-- All slots, in the order in which they were created. -/
  created : List (ValueId × Ty)
  deriving DecidableEq, Repr

namespace Slots

def empty : Slots :=
  ⟨[], []⟩

def size (s : Slots) : Nat :=
  s.created.length

def isEmpty (s : Slots) : Bool :=
  s.created.isEmpty

/-- A slot for one value of type `t`, new if no released one fits. -/
def acquire (s : Slots) (f : Function) (t : Ty) : ValueId × Slots × Function :=
  match s.free.find? (·.1 == t) with
  | some (_, slot) => (slot, { s with free := s.free.eraseP (·.1 == t) }, f)
  | none =>
    let (slot, f) := f.newValue "spill" (.ptr t)
    (slot, { s with created := s.created ++ [(slot, t)] }, f)

def release (s : Slots) (t : Ty) (slot : ValueId) : Slots :=
  { s with free := (t, slot) :: s.free }

/-- Defines every slot at the front of `b`. -/
def materialize (s : Slots) (f : Function) (b : BlockId) : Function :=
  f.modifyBody b (s.created.map (fun (slot, t) => .define slot (.alloca t 1)) ++ ·)

end Slots

end CheckpointRestart
