import CheckpointRestart.Program.Instruction

/-! # Functions

A function owns its values and its blocks and refers to both by position, so neither is ever
removed. The layout lists the blocks in the order in which they are written; the first one is the
entry. Names of values, and names of blocks, are distinct within a function: a new one whose name
is taken gets a numbered name.
-/

namespace CheckpointRestart

structure ValueInfo where
  name : String
  type : Ty
  deriving DecidableEq, Repr, Inhabited

/-- A straight run of instructions. In a well-formed block the merges come first and the last
instruction, and only that, is a terminator. -/
structure Block where
  name : String
  body : List Instruction
  deriving DecidableEq, Repr, Inhabited

namespace Block

def phis (b : Block) : List Instruction :=
  b.body.takeWhile (·.op.isPhi)

def afterPhis (b : Block) : List Instruction :=
  b.body.dropWhile (·.op.isPhi)

def terminator? (b : Block) : Option Instruction :=
  b.body.getLast?.filter (·.op.isTerminator)

/-- The distinct branch targets, in branch order. -/
def successors (b : Block) : List BlockId :=
  match b.terminator? with
  | some t => t.op.targets.eraseDups
  | none => []

def mapBody (f : List Instruction → List Instruction) (b : Block) : Block :=
  { b with body := f b.body }

end Block

structure Location where
  block : BlockId
  position : Nat
  deriving DecidableEq, Repr

structure Function where
  name : String
  params : List ValueId
  returns : Ty
  values : Array ValueInfo
  blocks : Array Block
  layout : List BlockId
  deriving DecidableEq, Repr, Inhabited

/-- `base` if it is not taken, else `base.n` for the least positive `n` that is not. -/
def freshName (taken : List String) (base : String) : String :=
  if taken.contains base then
    ((List.range taken.length).findSome? fun n =>
      let name := base ++ "." ++ toString (n + 1)
      if taken.contains name then none else some name).getD base
  else base

namespace Function

def empty (name : String) (returns : Ty) : Function :=
  { name, params := [], returns, values := #[], blocks := #[], layout := [] }

/-! ## Values -/

def valueInfo (f : Function) (v : ValueId) : ValueInfo :=
  f.values.getD v.index ⟨"", .void⟩

def valueName (f : Function) (v : ValueId) : String :=
  (f.valueInfo v).name

def valueType (f : Function) (v : ValueId) : Ty :=
  (f.valueInfo v).type

def valueIds (f : Function) : List ValueId :=
  (List.range f.values.size).map ValueId.mk

def valueNamed? (f : Function) (name : String) : Option ValueId :=
  (f.values.findIdx? (·.name == name)).map ValueId.mk

def operandType (f : Function) : Operand → Ty
  | .value v => f.valueType v
  | .const c => c.type

/-- Creates a value that nothing defines yet. -/
def newValue (f : Function) (name : String) (type : Ty) : ValueId × Function :=
  let name := freshName (f.values.toList.map (·.name)) name
  (⟨f.values.size⟩, { f with values := f.values.push ⟨name, type⟩ })

def addParam (f : Function) (name : String) (type : Ty) : ValueId × Function :=
  let (v, f) := f.newValue name type
  (v, { f with params := f.params ++ [v] })

def setValueType (f : Function) (v : ValueId) (type : Ty) : Function :=
  { f with values := f.values.modify v.index fun info => { info with type } }

/-! ## Blocks -/

def block (f : Function) (b : BlockId) : Block :=
  f.blocks.getD b.index ⟨"", []⟩

def blockName (f : Function) (b : BlockId) : String :=
  (f.block b).name

def body (f : Function) (b : BlockId) : List Instruction :=
  (f.block b).body

def blockNamed? (f : Function) (name : String) : Option BlockId :=
  (f.blocks.findIdx? (·.name == name)).map BlockId.mk

/-- The first block of the layout. -/
def entry (f : Function) : BlockId :=
  f.layout.headD ⟨0⟩

def createBlock (f : Function) (name : String) : BlockId × Function :=
  let name := freshName (f.blocks.toList.map (·.name)) name
  (⟨f.blocks.size⟩, { f with blocks := f.blocks.push ⟨name, []⟩ })

def addBlock (f : Function) (name : String) : BlockId × Function :=
  let (b, f) := f.createBlock name
  (b, { f with layout := f.layout ++ [b] })

/-- Puts `new` right after the first `after`, or at the end if there is none. -/
def insertAfter (after new : BlockId) : List BlockId → List BlockId
  | [] => [new]
  | b :: rest => if b = after then b :: new :: rest else b :: insertAfter after new rest

/-- Creates an empty block right after another one in the layout. -/
def insertBlockAfter (f : Function) (after : BlockId) (name : String) : BlockId × Function :=
  let (b, f) := f.createBlock name
  (b, { f with layout := insertAfter after b f.layout })

def modifyBody (f : Function) (b : BlockId) (g : List Instruction → List Instruction) : Function :=
  { f with blocks := f.blocks.modify b.index (Block.mapBody g) }

def setBody (f : Function) (b : BlockId) (body : List Instruction) : Function :=
  f.modifyBody b fun _ => body

/-- Applies `g` to every instruction, also in blocks outside the layout. -/
def mapInstructions (f : Function) (g : Instruction → Instruction) : Function :=
  { f with blocks := f.blocks.map (Block.mapBody (·.map g)) }

/-! ## Instructions -/

def instructions (f : Function) : List (BlockId × Instruction) :=
  f.layout.flatMap fun b => (f.body b).map fun i => (b, i)

def append (f : Function) (b : BlockId) (i : Instruction) : Function :=
  f.modifyBody b (· ++ [i])

def insertAt (f : Function) (b : BlockId) (position : Nat) (i : Instruction) : Function :=
  f.modifyBody b fun body => body.take position ++ i :: body.drop position

def insertFront (f : Function) (b : BlockId) (i : Instruction) : Function :=
  f.modifyBody b (i :: ·)

/-- Inserts right before the terminator, or at the end of a block that has none yet. -/
def insertBeforeTerminator (f : Function) (b : BlockId) (i : Instruction) : Function :=
  let size := (f.body b).length
  f.insertAt b (if (f.block b).terminator?.isSome then size - 1 else size) i

def resultName (f : Function) (i : Instruction) : String :=
  (i.result.map f.valueName).getD "?"

/-- Where `v` is defined in the body of a block. -/
def position? (body : List Instruction) (v : ValueId) : Option Nat :=
  body.findIdx? (·.result == some v)

/-- Removes the first instruction that defines `v`. -/
def eraseDefinition (f : Function) (v : ValueId) : Option Instruction × Function :=
  match f.blocks.findIdx? fun b => (position? b.body v).isSome with
  | none => (none, f)
  | some b =>
    let body := f.body ⟨b⟩
    match position? body v with
    | none => (none, f)
    | some p => (body[p]?, f.setBody ⟨b⟩ (body.eraseIdx p))

def definitions (f : Function) : List (ValueId × Location) :=
  f.layout.flatMap fun b =>
    (f.body b).zipIdx.filterMap fun (i, position) => i.result.map (·, ⟨b, position⟩)

/-- Where `v` is defined, the last place if there are several. -/
def definition? (f : Function) (v : ValueId) : Option Location :=
  (f.definitions.reverse.find? (·.1 == v)).map (·.2)

def instructionAt? (f : Function) (l : Location) : Option Instruction :=
  (f.body l.block)[l.position]?

def isInstrumented (f : Function) : Bool :=
  f.instructions.any (·.2.op.isSession)

/-- Whether the function takes an argument count and an argument vector. -/
def takesArguments (f : Function) : Bool :=
  match f.params with
  | [count, vector] => (f.valueType count).isInt && f.valueType vector == .ptr .bytePtr
  | _ => false

/-! ## Control flow -/

def successors (f : Function) (b : BlockId) : List BlockId :=
  (f.block b).successors

def predecessors (f : Function) (b : BlockId) : List BlockId :=
  f.layout.filter fun p => (f.successors p).contains b

/-- Makes the branches of the last instruction of `source` to `old` go to `new`. -/
def retarget (f : Function) (source old new : BlockId) : Function :=
  let redirect := fun b => if b = old then new else b
  f.modifyBody source fun body =>
    match body.getLast? with
    | none => body
    | some last => body.dropLast ++ [last.mapOp (Op.mapTargets redirect)]

/-- In the merges of `b`, renames the incoming block `old` to `new`. -/
def replacePhiBlock (f : Function) (b old new : BlockId) : Function :=
  let rename := fun p => if p = old then new else p
  f.modifyBody b (·.map (Instruction.mapOp (Op.mapPhiBlocks rename)))

/-- Replaces every use of `old`. -/
def replaceUses (f : Function) (old : ValueId) (new : Operand) : Function :=
  f.mapInstructions (Instruction.mapOp (Op.mapOperands (Operand.replace old new)))

/-- Replaces the uses of `old` in `b`, except those by merges. -/
def replaceUsesIn (f : Function) (b : BlockId) (old : ValueId) (new : Operand) : Function :=
  f.modifyBody b (·.map fun i =>
    if i.op.isPhi then i else i.mapOp (Op.mapOperands (Operand.replace old new)))

end Function

structure Program where
  functions : List Function
  deriving DecidableEq, Repr, Inhabited

namespace Program

def function? (p : Program) (name : String) : Option Function :=
  p.functions.find? (·.name == name)

def replaceFunction (p : Program) (f : Function) : Program :=
  ⟨p.functions.map fun g => if g.name == f.name then f else g⟩

end Program

end CheckpointRestart
