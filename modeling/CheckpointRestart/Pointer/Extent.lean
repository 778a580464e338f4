import CheckpointRestart.Flow.Uses

/-! # Extents of pointers

The extent of a pointer says how much memory the allocation it points into has, as a number of
elements of a width in bits, and which other pointers it may be equal to. Sizes are operands, since
they need not be constant.
-/

namespace CheckpointRestart

/-- Where a pointer comes from. -/
inductive Provenance where
  | allocation
  | merge
  /-- An address computation, a reinterpretation or a load through `source`. -/
  | derived (source : ValueId)
  /-- The argument vector handed to the entry function. -/
  | parameter
  deriving DecidableEq, Repr, Inhabited

structure Extent where
  provenance : Provenance
  /-- Bits per element. -/
  width : Operand
  /-- Number of elements. -/
  count : Operand
  /-- Pointers this one may be equal to; allocations and parameters contain themselves. -/
  aliases : ValueSet
  /-- The element index of an address computation, if it is not constant. -/
  index : Option ValueId
  deriving Inhabited

namespace Extent

/-- The sizes that are not constant. -/
def sizeValues (e : Extent) : List ValueId :=
  [e.width, e.count].filterMap Operand.value?

def mapSizes (f : Operand → Operand) (e : Extent) : Extent :=
  { e with width := f e.width, count := f e.count }

end Extent

abbrev ExtentMap := Std.ExtTreeMap ValueId Extent

/-- The extents of all pointers of a function, and the merges of sizes that were added to it. -/
structure Extents where
  map : ExtentMap
  placeholders : ValueSet

namespace Extents

def get? (e : Extents) (v : ValueId) : Option Extent :=
  e.map[v]?

/-- What has been gathered on the way along alias sets. -/
structure Gathering where
  /-- The values found, the last one first. -/
  found : List ValueId
  seen : ValueSet
  /-- Members that are not kept and have been replaced by what they are computed from. -/
  bypassed : ValueSet
  /-- Kept members whose own extents remain to be looked at. -/
  todo : List ValueId

namespace Gathering

def add (g : Gathering) (v : ValueId) : Gathering :=
  if g.seen.contains v then g else { g with found := v :: g.found, seen := g.seen.insert v }

/-- Adds a kept member, whose extent is looked at later. -/
def keep (g : Gathering) (v : ValueId) : Gathering :=
  if g.seen.contains v then g
  else { g with found := v :: g.found, seen := g.seen.insert v, todo := v :: g.todo }

end Gathering

/-- Goes through alias members. One that is not kept is replaced, once, by the source and the
index it is computed from. -/
def scanMembers (e : Extents) (kept : ValueId → Bool) :
    Nat → List ValueId → Gathering → Gathering
  | 0, _, g => g
  | _, [], g => g
  | fuel + 1, m :: rest, g =>
    if kept m then e.scanMembers kept fuel rest (g.keep m)
    else if g.seen.contains m || g.bypassed.contains m then e.scanMembers kept fuel rest g
    else
      let g := { g with bypassed := g.bypassed.insert m }
      match e.get? m with
      | some x =>
        match x.provenance with
        | .derived source =>
          e.scanMembers kept fuel (source :: (x.index.toList ++ rest)) g
        | _ => e.scanMembers kept fuel rest g
      | none => e.scanMembers kept fuel rest g

/-- Looks at the extents of all members still to do. -/
def gather (e : Extents) (kept : ValueId → Bool) : Nat → Gathering → Gathering
  | 0, g => g
  | fuel + 1, g =>
    match g.todo with
    | [] => g
    | v :: rest =>
      let g := { g with todo := rest }
      match e.get? v with
      | none => e.gather kept fuel g
      | some x =>
        let g := (x.sizeValues ++ x.index.toList).foldl Gathering.add g
        let members := x.aliases.toList
        e.gather kept fuel (e.scanMembers kept (members.length + 2 * e.map.size) members g)

/-- How many values the extents mention, repeats counted. -/
def mentions (e : Extents) : Nat :=
  e.map.foldl (fun n _ x => n + x.aliases.size + 2) 0

/-- Every value to keep wherever `v` is kept: its sizes, its index, the operands of alias members
that are not kept, and the members that are, with what they need in turn. They are listed in the
order in which they are found, without `v`. -/
def dependencies (e : Extents) (v : ValueId) (kept : ValueId → Bool) : List ValueId :=
  (e.gather kept (e.mentions + 2) ⟨[], {v}, ∅, [v]⟩).found.reverse

end Extents

end CheckpointRestart
