/-! # Sets with positions

A set that remembers the order in which its members were first inserted. The position of a member
never changes.
-/

namespace CheckpointRestart

structure IndexedSet (α : Type) where
  /-- The members, in the order of insertion. -/
  toList : List α
  nodup : toList.Nodup

namespace IndexedSet

variable {α : Type} [DecidableEq α]

def empty : IndexedSet α :=
  ⟨[], List.nodup_nil⟩

instance : EmptyCollection (IndexedSet α) := ⟨empty⟩

instance : Inhabited (IndexedSet α) := ⟨empty⟩

def size (s : IndexedSet α) : Nat :=
  s.toList.length

def isEmpty (s : IndexedSet α) : Bool :=
  s.toList.isEmpty

def index? (s : IndexedSet α) (a : α) : Option Nat :=
  s.toList.idxOf? a

def get? (s : IndexedSet α) (i : Nat) : Option α :=
  s.toList[i]?

def insert (s : IndexedSet α) (a : α) : IndexedSet α :=
  if h : a ∈ s.toList then s
  else ⟨s.toList ++ [a], by
    rw [List.nodup_append]
    refine ⟨s.nodup, by simp, fun x hx y hy => ?_⟩
    rintro rfl
    exact h (by simpa using List.mem_singleton.mp hy ▸ hx)⟩

/-- The position of `a` after it has been inserted, and whether it is new. -/
def insertIndex (s : IndexedSet α) (a : α) : Nat × Bool :=
  match s.index? a with
  | some i => (i, false)
  | none => (s.size, true)

end IndexedSet

end CheckpointRestart
