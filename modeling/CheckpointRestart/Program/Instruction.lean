import CheckpointRestart.Number.Word
import CheckpointRestart.Program.Type

/-! # Instructions

Values and blocks are named by their position in the function that owns them. An instruction is an
operation together with the value it defines, if it defines one. The operations on the
checkpointing session form a type of their own.
-/

namespace CheckpointRestart

/-- A parameter or an instruction result, by its position in the function. -/
structure ValueId where
  index : Nat
  deriving DecidableEq, Repr, Inhabited, Hashable

/-- A basic block, by its position in the function. -/
structure BlockId where
  index : Nat
  deriving DecidableEq, Repr, Inhabited, Hashable

instance : Ord ValueId := ⟨compareOn ValueId.index⟩

instance : Std.TransOrd ValueId := inferInstanceAs (Std.TransCmp (compareOn ValueId.index))

instance : Std.LawfulEqOrd ValueId where
  eq_of_compare {a b} h := by
    have : a.index = b.index := Nat.compare_eq_eq.mp h
    cases a; cases b; simp_all

instance : Ord BlockId := ⟨compareOn BlockId.index⟩

instance : Std.TransOrd BlockId := inferInstanceAs (Std.TransCmp (compareOn BlockId.index))

instance : Std.LawfulEqOrd BlockId where
  eq_of_compare {a b} h := by
    have : a.index = b.index := Nat.compare_eq_eq.mp h
    cases a; cases b; simp_all

/-- A typed constant. Floats are kept as their bit patterns. -/
inductive Constant where
  | int (bits : Nat) (value : Int64)
  | f32 (pattern : UInt32)
  | f64 (pattern : UInt64)
  /-- The null pointer of the given pointer type. -/
  | null (type : Ty)
  deriving DecidableEq, Repr, Inhabited

namespace Constant

/-- The integer constant of the given width that agrees with `value` on its low bits. -/
def ofInt (bits : Nat) (value : Int64) : Constant :=
  int bits (Word.signExtend value bits)

def i64 (value : Int64) : Constant :=
  int 64 value

def type : Constant → Ty
  | int bits _ => .int bits
  | f32 _ => .f32
  | f64 _ => .f64
  | null t => t

end Constant

inductive Operand where
  | value (v : ValueId)
  | const (c : Constant)
  deriving DecidableEq, Repr, Inhabited

namespace Operand

def i64 (n : Int64) : Operand :=
  const (.i64 n)

def value? : Operand → Option ValueId
  | value v => some v
  | const _ => none

/-- Puts `new` in place of the value `old`. -/
def replace (old : ValueId) (new : Operand) (x : Operand) : Operand :=
  if x = value old then new else x

end Operand

/-- Binary operations. `shr` keeps the sign. -/
inductive BinaryOp where
  | add | sub | mul | div | rem | and | or | xor | shl | shr
  deriving DecidableEq, Repr

namespace BinaryOp

def all : List BinaryOp :=
  [add, sub, mul, div, rem, and, or, xor, shl, shr]

def mnemonic : BinaryOp → String
  | add => "add"
  | sub => "sub"
  | mul => "mul"
  | div => "div"
  | rem => "rem"
  | and => "and"
  | or => "or"
  | xor => "xor"
  | shl => "shl"
  | shr => "shr"

end BinaryOp

/-- Comparisons, signed for integers. -/
inductive Relation where
  | eq | ne | lt | le | gt | ge
  deriving DecidableEq, Repr

namespace Relation

def all : List Relation :=
  [eq, ne, lt, le, gt, ge]

def mnemonic : Relation → String
  | eq => "eq"
  | ne => "ne"
  | lt => "lt"
  | le => "le"
  | gt => "gt"
  | ge => "ge"

def holds : Relation → Ordering → Bool
  | eq, o => o == .eq
  | ne, o => o != .eq
  | lt, o => o == .lt
  | le, o => o != .gt
  | gt, o => o == .gt
  | ge, o => o != .lt

end Relation

/-- A pointer written earlier in the same checkpoint that another pointer may be equal to. -/
structure AliasCandidate where
  width : Operand
  count : Operand
  /-- The position of the candidate's entry in the checkpoint. -/
  index : UInt64
  address : Operand
  deriving DecidableEq, Repr

/-- What a function can ask of the checkpointing session. -/
inductive SessionCall where
  /-- Choose the directory of this run and start the interval timer. -/
  | setup
  /-- Begin an attempt for `label` that will write `count` entries. -/
  | start (label count : UInt64)
  /-- Write `count` elements of `width` bits found at `address`. -/
  | savePointer (width count address : Operand)
  /-- Write `address` as a reference to the candidate it equals. -/
  | saveAlias (width count address : Operand) (candidates : List AliasCandidate)
  | finish
  /-- The label of the newest valid checkpoint, or `-1`. -/
  | restartLabel
  /-- Fill the buffer at `address` from the next entry. -/
  | readPointer (width count address : Operand)
  /-- The restored address that the next entry refers to. -/
  | readAlias (width count : Operand)
  | restartFinish
  deriving DecidableEq, Repr

namespace SessionCall

def mnemonic : SessionCall → String
  | setup => "rt.setup"
  | start _ _ => "rt.start"
  | savePointer _ _ _ => "rt.checkpoint_pointer"
  | saveAlias _ _ _ _ => "rt.checkpoint_alias"
  | finish => "rt.finish"
  | restartLabel => "rt.restart_label"
  | readPointer _ _ _ => "rt.read_pointer"
  | readAlias _ _ => "rt.read_alias"
  | restartFinish => "rt.restart_finish"

def resultType : SessionCall → Ty
  | restartLabel => .i64
  | readAlias _ _ => .bytePtr
  | _ => .void

def operands : SessionCall → List Operand
  | savePointer w n a | readPointer w n a => [w, n, a]
  | saveAlias w n a cs => [w, n, a] ++ cs.flatMap fun c => [c.width, c.count, c.address]
  | readAlias w n => [w, n]
  | setup | start _ _ | finish | restartLabel | restartFinish => []

def mapOperands (f : Operand → Operand) : SessionCall → SessionCall
  | savePointer w n a => savePointer (f w) (f n) (f a)
  | readPointer w n a => readPointer (f w) (f n) (f a)
  | saveAlias w n a cs =>
    saveAlias (f w) (f n) (f a) <| cs.map fun c =>
      { c with width := f c.width, count := f c.count, address := f c.address }
  | readAlias w n => readAlias (f w) (f n)
  | setup => setup
  | start l n => start l n
  | finish => finish
  | restartLabel => restartLabel
  | restartFinish => restartFinish

end SessionCall

/-- The groups of operations that the analyses tell apart. -/
inductive Category where
  | allocation | merge | addressComputation | reinterpret | call | branch | ordinary
  deriving DecidableEq, Repr

/-- What an instruction does. -/
inductive Op where
  /-- Stack allocation of `count` elements. -/
  | alloca (element : Ty) (count : UInt64)
  /-- Heap allocation of that many bytes. -/
  | malloc (bytes : Operand)
  | free (pointer : Operand)
  /-- A merge: one incoming value for each predecessor block. -/
  | phi (incoming : List (Operand × BlockId))
  /-- The address of the element at `index`, counted from `pointer`. -/
  | gep (pointer index : Operand)
  /-- Pointer reinterpretation, integer resizing, or a conversion between numbers. -/
  | cast (value : Operand) (target : Ty)
  | load (pointer : Operand)
  | store (value pointer : Operand)
  | binary (op : BinaryOp) (lhs rhs : Operand)
  | compare (rel : Relation) (lhs rhs : Operand)
  /-- A call of an external function, which produces no value. -/
  | call (callee : String) (args : List Operand)
  | session (call : SessionCall)
  | br (target : BlockId)
  /-- Branches to the first target if the condition is not zero. -/
  | condBr (condition : Operand) (thenTarget elseTarget : BlockId)
  | switch (value : Operand) (default : BlockId) (cases : List (Int64 × BlockId))
  | ret (value : Option Operand)
  deriving DecidableEq, Repr

namespace Op

def isTerminator : Op → Bool
  | br _ | condBr _ _ _ | switch _ _ _ | ret _ => true
  | _ => false

def isPhi : Op → Bool
  | phi _ => true
  | _ => false

def isSession : Op → Bool
  | session _ => true
  | _ => false

def category : Op → Category
  | alloca _ _ | malloc _ => .allocation
  | phi _ => .merge
  | gep _ _ => .addressComputation
  | cast _ _ => .reinterpret
  | call _ _ | session _ | free _ => .call
  | br _ | condBr _ _ _ | switch _ _ _ | ret _ => .branch
  | load _ | store _ _ | binary _ _ _ | compare _ _ _ => .ordinary

/-- Whether an instruction of this kind must define a value. -/
def producesValue : Op → Bool
  | session c => !c.resultType.isVoid
  | alloca _ _ | malloc _ | phi _ | gep _ _ | cast _ _ | load _ | binary _ _ _
  | compare _ _ _ => true
  | free _ | store _ _ | call _ _ | br _ | condBr _ _ _ | switch _ _ _ | ret _ => false

/-- All operands, the incoming values of a merge included. -/
def operands : Op → List Operand
  | alloca _ _ | br _ => []
  | malloc x | free x | load x | cast x _ | condBr x _ _ | switch x _ _ => [x]
  | phi incoming => incoming.map (·.1)
  | gep x y | store x y | binary _ x y | compare _ x y => [x, y]
  | call _ args => args
  | session c => c.operands
  | ret value => value.toList

def usedValues (op : Op) : List ValueId :=
  op.operands.filterMap Operand.value?

def mapOperands (f : Operand → Operand) : Op → Op
  | alloca t n => alloca t n
  | malloc x => malloc (f x)
  | free x => free (f x)
  | phi incoming => phi (incoming.map fun (x, b) => (f x, b))
  | gep x y => gep (f x) (f y)
  | cast x t => cast (f x) t
  | load x => load (f x)
  | store x y => store (f x) (f y)
  | binary op x y => binary op (f x) (f y)
  | compare rel x y => compare rel (f x) (f y)
  | call callee args => call callee (args.map f)
  | session c => session (c.mapOperands f)
  | br b => br b
  | condBr x t e => condBr (f x) t e
  | switch x d cases => switch (f x) d cases
  | ret value => ret (value.map f)

/-- The branch targets in order, possibly with repeats. -/
def targets : Op → List BlockId
  | br b => [b]
  | condBr _ t e => [t, e]
  | switch _ d cases => d :: cases.map (·.2)
  | _ => []

def mapTargets (f : BlockId → BlockId) : Op → Op
  | br b => br (f b)
  | condBr x t e => condBr x (f t) (f e)
  | switch x d cases => switch x (f d) (cases.map fun (k, b) => (k, f b))
  | op => op

/-- Renames the blocks that incoming values of a merge come from. -/
def mapPhiBlocks (f : BlockId → BlockId) : Op → Op
  | phi incoming => phi (incoming.map fun (x, b) => (x, f b))
  | op => op

end Op

structure Instruction where
  result : Option ValueId
  op : Op
  deriving DecidableEq, Repr

namespace Instruction

def effect (op : Op) : Instruction :=
  ⟨none, op⟩

def define (result : ValueId) (op : Op) : Instruction :=
  ⟨some result, op⟩

def mapOp (f : Op → Op) (i : Instruction) : Instruction :=
  { i with op := f i.op }

end Instruction

end CheckpointRestart
