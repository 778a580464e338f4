import CheckpointRestart.Flow.Fixpoint
import CheckpointRestart.Flow.Uses

/-! # Allocation roots

The allocations and pointer parameters a pointer may have been computed from, followed through
merges, address computations and reinterpretations. A pointer that comes from anywhere else, such
as a load, has unknown roots. Two pointers with known and disjoint roots cannot be equal.
-/

namespace CheckpointRestart

/-- The known roots. A pointer without an entry has unknown roots. -/
abbrev RootMap := Std.ExtTreeMap ValueId ValueSet

namespace RootMap

/-- The roots of an operand; a constant has none. -/
def ofOperand? (roots : RootMap) : Operand → Option ValueSet
  | .value v => roots[v]?
  | .const _ => some ∅

/-- The union of the roots of all operands, if they are all known. -/
def union? (roots : RootMap) (xs : List Operand) : Option ValueSet :=
  xs.foldlM (fun acc x => (roots.ofOperand? x).map (acc ∪ ·)) ∅

/-- Sets or forgets the roots of `v`. -/
def assign (roots : RootMap) (v : ValueId) : Option ValueSet → RootMap
  | some s => roots.insert v s
  | none => roots.erase v

end RootMap

namespace Function

/-- The instructions that define pointers, in layout order. -/
def pointerDefinitions (f : Function) : List (BlockId × ValueId × Op) :=
  f.instructions.filterMap fun (b, i) =>
    i.result.bind fun v => if (f.valueType v).isPointer then some (b, v, i.op) else none

/-- The roots of the pointer that `v` gets from `op`, given the roots known so far. -/
def rootsOf? (f : Function) (roots : RootMap) (v : ValueId) : Op → Option ValueSet
  | .alloca _ _ | .malloc _ => some {v}
  | .phi incoming => roots.union? (incoming.map (·.1))
  | .gep x _ => roots.ofOperand? x
  | .cast x _ => if (f.operandType x).isPointer then roots.ofOperand? x else none
  | _ => none

def rootPass (f : Function) (definitions : List (BlockId × ValueId × Op)) (roots : RootMap) :
    RootMap :=
  definitions.foldl (fun roots (_, v, op) => roots.assign v (f.rootsOf? roots v op)) roots

/-- Parameters are their own roots, and nothing flows into the other pointers yet. -/
def initialRoots (f : Function) (definitions : List (BlockId × ValueId × Op)) : RootMap :=
  let params := f.params.filter fun p => (f.valueType p).isPointer
  let roots : RootMap := params.foldl (fun roots p => roots.insert p {p}) ∅
  definitions.foldl (fun roots (_, v, _) => if v ∈ roots then roots else roots.insert v ∅) roots

/-- The roots of every pointer. Each pass that changes something adds a root or makes the roots of
a pointer unknown, which bounds their number. -/
def roots (f : Function) : RootMap :=
  let definitions := f.pointerDefinitions
  let same (x y : RootMap) := definitions.all fun (_, v, _) => x[v]? == y[v]?
  let bound := definitions.length * (definitions.length + f.params.length + 2) + 1
  stabilize (f.rootPass definitions) same bound (f.initialRoots definitions)

end Function

/-- Answers whether two pointers may be equal. -/
abbrev AliasOracle := ValueId → ValueId → Bool

namespace AliasOracle

/-- Rules nothing out. -/
def conservative : AliasOracle :=
  fun _ _ => true

/-- Rules out pointers with known and disjoint roots. -/
def ofRoots (roots : RootMap) : AliasOracle := fun a b =>
  a == b ||
    match roots[a]?, roots[b]? with
    | some ra, some rb => ra.any (rb.contains ·)
    | _, _ => true

end AliasOracle

end CheckpointRestart
