import CheckpointRestart.Flow.Dominance
import CheckpointRestart.Program.Printer

/-! # Scoping

Every use must be dominated by the definition of the value used. A merge uses its incoming values
at the ends of the blocks they come from. Blocks that control cannot reach are not checked.
-/

namespace CheckpointRestart

inductive ScopeFault where
  /-- An incoming value of a merge is not defined at the end of the block it comes from. -/
  | incoming (value source phi : String)
  /-- An operand is not defined at the instruction that uses it. -/
  | operand (value instruction block : String)
  deriving DecidableEq, Repr

namespace ScopeFault

def message : ScopeFault → String
  | incoming v source phi =>
    "`%" ++ v ++ "` does not dominate the end of `" ++ source ++ "` (incoming of `%" ++ phi ++ "`)"
  | operand v i b => "`%" ++ v ++ "` does not dominate its use `" ++ i ++ "` in `" ++ b ++ "`"

end ScopeFault

/-- What is needed to tell whether a value is defined at a place. -/
structure Scope where
  params : List ValueId
  /-- Definitions, the one that counts first. -/
  definitions : List (ValueId × Location)
  dominators : Dominators

namespace Scope

def ofFunction (f : Function) : Scope where
  params := f.params
  definitions := f.definitions.reverse
  dominators := Dominators.compute f

def definition? (s : Scope) (v : ValueId) : Option Location :=
  s.definitions.lookup v

/-- Whether `v` is defined before `position` in block `b` whenever control gets there. -/
def definedBefore (s : Scope) (v : ValueId) (b : BlockId) (position : Nat) : Bool :=
  s.params.contains v ||
    match s.definition? v with
    | none => false
    | some l =>
      if l.block = b then l.position < position else s.dominators.dominates l.block b

end Scope

namespace Function

/-- The first fault among the operands of one instruction. -/
def instructionScopeFault? (f : Function) (s : Scope) (b : BlockId) (position : Nat)
    (i : Instruction) : Option ScopeFault :=
  match i.op with
  | .phi incoming =>
    incoming.findSome? fun (x, source) =>
      match x with
      | .value v =>
        if s.dominators.isReachable source &&
            !s.definedBefore v source (f.body source).length then
          some (.incoming (f.valueName v) (f.blockName source) (f.resultName i))
        else none
      | .const _ => none
  | op =>
    op.usedValues.findSome? fun v =>
      if s.definedBefore v b position then none
      else some (.operand (f.valueName v) (f.renderInstruction i) (f.blockName b))

/-- The first use, in layout order, that its definition does not dominate. -/
def scopeFault? (f : Function) : Option ScopeFault :=
  let s := Scope.ofFunction f
  f.layout.findSome? fun b =>
    if s.dominators.isReachable b then
      (f.body b).zipIdx.findSome? fun (i, position) => f.instructionScopeFault? s b position i
    else none

def checkScoping (f : Function) : Except ScopeFault Unit :=
  match f.scopeFault? with
  | some fault => .error fault
  | none => .ok ()

end Function

end CheckpointRestart
