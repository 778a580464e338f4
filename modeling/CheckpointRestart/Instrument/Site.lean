import CheckpointRestart.Flow.Liveness
import CheckpointRestart.Pointer.Extent
import CheckpointRestart.Program.Scoping

/-! # Checkpoint sites

A checkpoint is taken on entry to a block that follows a merge block, is not the end of the
function, and has something live on entry. Such blocks are where a loop comes round, and they have
a single predecessor, so code can be put on the edge.
-/

namespace CheckpointRestart

/-- A chosen site. Labels count the sites in layout order. -/
structure Site where
  label : Nat
  block : BlockId
  /-- The values live on entry, in order. -/
  live : List ValueId
  deriving DecidableEq, Repr

namespace Scope

/-- Whether `v` is defined at a place whenever control gets there. -/
def available (s : Scope) (point : UsePoint) (v : ValueId) : Bool :=
  s.params.contains v ||
    match s.definition? v with
    | none => false
    | some l =>
      match point.position with
      | some position =>
        if l.block = point.block then l.position < position
        else s.dominators.dominates l.block point.block
      | none => s.dominators.dominates l.block point.block

end Scope

namespace Extents

/-- Using a pointer brings along what its extent depends on; alias members only where they are
defined. -/
def companions (e : Extents) (s : Scope) : Companions :=
  fun v point => e.dependencies v (s.available point)

end Extents

namespace Liveness

def admissible (l : Liveness) (b : BlockId) : Bool :=
  let node := l.summary.node b
  !node.isMerge && !node.successors.isEmpty &&
    (match node.predecessors with
      | [p] => (l.summary.node p).isMerge
      | _ => false) &&
    !(l.liveIn b).isEmpty

/-- The sites of a function, in layout order. -/
def sites (l : Liveness) : List Site :=
  (l.summary.layout.filter l.admissible).zipIdx.map fun (b, label) =>
    ⟨label, b, l.liveValues b⟩

end Liveness

end CheckpointRestart
