import CheckpointRestart.Program.Function

/-! # Structural well-formedness

The rules a function obeys whatever its values are: each block ends in its only terminator, merges
come first and have one incoming value per predecessor, and every value is defined once. Faults
are looked for block by block in layout order, and within a block instruction by instruction; the
first one found is reported.
-/

namespace CheckpointRestart

inductive StructureFault where
  | noBlocks (function : String)
  | entryHasPredecessors (block : String)
  | unterminated (block : String)
  | earlyTerminator (block : String)
  | latePhi (block : String)
  | danglingValue (value : ValueId) (block : String)
  | unknownTarget (target : BlockId) (block : String)
  | voidValue (value : String)
  | redefined (value : String)
  | missingResult (block : String)
  | incomingMismatch (phi : String) (incoming predecessors : List String) (block : String)
  deriving DecidableEq, Repr

namespace StructureFault

def message : StructureFault → String
  | noBlocks f => "function `" ++ f ++ "` has no blocks"
  | entryHasPredecessors b => "entry block `" ++ b ++ "` has predecessors"
  | unterminated b => "block `" ++ b ++ "` does not end in a terminator"
  | earlyTerminator b => "terminator in the middle of block `" ++ b ++ "`"
  | latePhi b => "phi after non-phi in block `" ++ b ++ "`"
  | danglingValue v b => "dangling value v" ++ toString v.index ++ " in `" ++ b ++ "`"
  | unknownTarget t b =>
    "branch to unknown block bb" ++ toString t.index ++ " in `" ++ b ++ "`"
  | voidValue v => "value `%" ++ v ++ "` has void type"
  | redefined v => "value `%" ++ v ++ "` defined more than once"
  | missingResult b => "instruction without result in `" ++ b ++ "`"
  | incomingMismatch phi incoming predecessors b =>
    "phi `%" ++ phi ++ "` incoming blocks [" ++ String.intercalate ", " incoming ++
      "] do not match predecessors [" ++ String.intercalate ", " predecessors ++ "] of `" ++ b ++
      "`"

end StructureFault

def insertBlock (b : BlockId) : List BlockId → List BlockId
  | [] => [b]
  | c :: bs => if b.index ≤ c.index then b :: c :: bs else c :: insertBlock b bs

def sortedBlocks (bs : List BlockId) : List BlockId :=
  bs.foldr insertBlock []

namespace Function

def checkResult (f : Function) (b : BlockId) (defined : List ValueId) (i : Instruction) :
    Except StructureFault (List ValueId) :=
  match i.result with
  | some v =>
    if (f.valueType v).isVoid then .error (.voidValue (f.valueName v))
    else if defined.contains v then .error (.redefined (f.valueName v))
    else .ok (v :: defined)
  | none =>
    if i.op.producesValue then .error (.missingResult (f.blockName b)) else .ok defined

/-- Checks that a merge has exactly one incoming value for each predecessor. -/
def checkIncoming (f : Function) (b : BlockId) (i : Instruction) : Except StructureFault Unit :=
  match i.op with
  | .phi incoming =>
    let sources := sortedBlocks (incoming.map (·.2))
    let expected := sortedBlocks (f.predecessors b)
    if sources = expected then .ok ()
    else .error (.incomingMismatch (f.resultName i) (sources.map f.blockName)
      (expected.map f.blockName) (f.blockName b))
  | _ => .ok ()

def checkInstruction (f : Function) (b : BlockId) (defined : List ValueId)
    (placed : Instruction × Nat) : Except StructureFault (List ValueId) := do
  let (i, position) := placed
  let block := f.block b
  if i.op.isTerminator && position + 1 != block.body.length then
    throw (.earlyTerminator block.name)
  if i.op.isPhi && block.phis.length ≤ position then
    throw (.latePhi block.name)
  if let some v := i.op.usedValues.find? (f.values.size ≤ ·.index) then
    throw (.danglingValue v block.name)
  if let some t := i.op.targets.find? (!f.layout.contains ·) then
    throw (.unknownTarget t block.name)
  let defined ← f.checkResult b defined i
  f.checkIncoming b i
  return defined

def checkBlock (f : Function) (defined : List ValueId) (b : BlockId) :
    Except StructureFault (List ValueId) :=
  if (f.block b).terminator?.isNone then .error (.unterminated (f.blockName b))
  else (f.body b).zipIdx.foldlM (f.checkInstruction b) defined

/-- The first structural fault of a function, if it has one. -/
def validate (f : Function) : Except StructureFault Unit := do
  if f.layout.isEmpty then
    throw (.noBlocks f.name)
  if !(f.predecessors f.entry).isEmpty then
    throw (.entryHasPredecessors (f.blockName f.entry))
  discard (f.layout.foldlM f.checkBlock f.params)

end Function

end CheckpointRestart
