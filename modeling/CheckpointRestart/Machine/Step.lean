import CheckpointRestart.Machine.Arithmetic
import CheckpointRestart.Machine.Memory
import CheckpointRestart.Program.Printer
import CheckpointRestart.Session.Basic
import Std.Data.ExtTreeMap

/-! # Executing one instruction

An instruction reads its operands from the environment, acts on memory, output and session, and
either defines a value or says where to go on. An instruction that fails changes nothing.
-/

namespace CheckpointRestart

/-- The values defined so far. -/
abbrev Env := Std.ExtTreeMap ValueId Value

/-- The state of a running program. -/
structure State (σ : Type) where
  env : Env
  memory : Memory
  /-- The lines printed so far. -/
  output : Array String
  session : Session Pointer σ

/-- What comes after an instruction. -/
inductive Flow where
  /-- The next instruction, with the value produced by this one. -/
  | next (result : Option Value)
  | jump (target : BlockId)
  | leave (result : Option Value)
  /-- The run stops as if it were killed. -/
  | halt
  deriving DecidableEq, Repr

abbrev Exec (σ : Type) := EStateM ExecError (State σ)

namespace Exec

variable {σ : Type}

def operand (f : Function) : Operand → Exec σ Value
  | .const c => return .ofConstant c
  | .value v => do
    match (← get).env[v]? with
    | some x => return x
    | none => throw (.undefinedValue (f.valueName v))

def operandAs {α : Type} (f : Function) (i : Instruction) (fault : TypeFault)
    (kind? : Value → Option α) (x : Operand) : Exec σ α := do
  match kind? (← operand f x) with
  | some a => return a
  | none => throw (.type (f.renderInstruction i) fault)

def integer (f : Function) (i : Instruction) : Operand → Exec σ Int64 :=
  operandAs f i .notInteger Value.int?

def size (f : Function) (i : Instruction) : Operand → Exec σ UInt64 :=
  operandAs f i .notSize Value.size?

def pointer (f : Function) (i : Instruction) : Operand → Exec σ Pointer :=
  operandAs f i .notPointer Value.pointer?

/-- An answer that must be there for the instruction to fit. -/
def require {α : Type} (f : Function) (i : Instruction) (fault : TypeFault) :
    Option α → Exec σ α
  | some a => return a
  | none => throw (.type (f.renderInstruction i) fault)

def liftMemory {α : Type} : Except MemoryFault α → Exec σ α
  | .ok a => return a
  | .error fault => throw (.memory fault)

def liftRestore {α : Type} : Except RestoreError α → Exec σ α
  | .ok a => return a
  | .error cause => throw (.restore cause)

def modifySession (g : Session Pointer σ → Session Pointer σ) : Exec σ Unit :=
  modify fun s => { s with session := g s.session }

def setMemory (m : Memory) : Exec σ Unit :=
  modify fun s => { s with memory := m }

def write (p : Pointer) (bytes : Bytes) : Exec σ Unit := do
  liftMemory ((← get).memory.checkRange p bytes.length)
  modify fun s => { s with memory := s.memory.put p bytes }

def allocate (size : Nat) : Exec σ Flow := do
  let p ← modifyGet fun s =>
    let (p, memory) := s.memory.allocate size
    (p, { s with memory })
  return .next (some (.ptr p))

end Exec

open Exec

variable {σ : Type} [Storage σ]

/-- Executes a call of the session. The run halts after the given number of checkpoints. -/
def execSessionCall (f : Function) (haltAfter : Option Nat) (i : Instruction) :
    SessionCall → Exec σ Flow
  | .setup => do
    modifySession Session.setup
    return .next none
  | .start label count => do
    modifySession (·.start label count)
    return .next none
  | .savePointer width count address => do
    let width ← size f i width
    let count ← size f i count
    let p ← pointer f i address
    let memory ← liftMemory ((← get).memory.tail p)
    modifySession (·.savePointer width count memory)
    return .next none
  | .saveAlias width count address candidates => do
    let width ← size f i width
    let count ← size f i count
    let p ← pointer f i address
    let candidates ← candidates.mapM fun c => do
      return ⟨← size f i c.width, ← size f i c.count, c.index, ← pointer f i c.address⟩
    modifySession (·.saveAlias width count p candidates)
    return .next none
  | .finish => do
    let (written, session) := (← get).session.finish
    modify fun s => { s with session }
    if written && haltAfter.any (· ≤ session.stats.performed) then
      return .halt
    return .next none
  | .restartLabel => do
    let (label, session) := (← get).session.restartLabel
    modify fun s => { s with session }
    let label := match label with
      | some l => if l < 0x8000000000000000 then l.toInt64 else -1
      | none => -1
    return .next (some (.ofInt 64 label))
  | .readPointer width count address => do
    let width ← size f i width
    let count ← size f i count
    let p ← pointer f i address
    let s ← get
    let dest ← liftMemory (s.memory.tail p)
    let (answer, t) := (Session.readPointer width count p).perform ⟨s.session, dest⟩
    set { s with session := t.session, memory := s.memory.put p t.buffer }
    liftRestore answer
    return .next none
  | .readAlias width count => do
    let width ← size f i width
    let count ← size f i count
    let s ← get
    let (answer, session) := (Session.readAlias width count).perform s.session
    set { s with session }
    return .next (some (.ptr (← liftRestore answer)))
  | .restartFinish => do
    modifySession Session.restartFinish
    return .next none

def execOp (f : Function) (haltAfter : Option Nat) (i : Instruction) : Exec σ Flow := do
  match i.op with
  | .alloca element count => allocate (UInt64.ofNat element.storeSize * count).toNat
  | .malloc bytes => allocate (← size f i bytes).toNat
  | .free x =>
    let p ← pointer f i x
    setMemory (← liftMemory ((← get).memory.free p))
    return .next none
  | .phi _ => throw (.type (f.renderInstruction i) .misplacedPhi)
  | .gep x index =>
    let element ← require f i .notAddressable (f.operandType x).pointee?
    let p ← pointer f i x
    let n ← integer f i index
    return .next (some (.ptr (p.add (n * .ofNat element.storeSize))))
  | .cast x target =>
    let v ← operand f x
    return .next (some (← require f i .invalidCast (v.cast? target)))
  | .load x =>
    let type := f.valueType (← require f i .noResult i.result)
    let p ← pointer f i x
    let bytes ← liftMemory ((← get).memory.read p type.storeSize)
    return .next (some (← require f i .loadOfVoid (Value.decode? bytes type)))
  | .store x y =>
    let v ← operand f x
    let p ← pointer f i y
    write p (v.encode (f.operandType x).storeSize)
    return .next none
  | .binary op x y =>
    let a ← operand f x
    let b ← operand f y
    match op.apply a b with
    | .ok v => return .next (some v)
    | .error .divisionByZero => throw (.divisionByZero (f.renderInstruction i))
    | .error .operands => throw (.type (f.renderInstruction i) .invalidOperands)
  | .compare rel x y =>
    let a ← operand f x
    let b ← operand f y
    let order ← require f i .incomparable (a.order? b)
    return .next (some (.ofBool (rel.holds order)))
  | .call callee args =>
    if callee = "print" then
      let values ← args.mapM (operand f)
      let line := String.intercalate " " (values.map Value.render)
      modify fun s => { s with output := s.output.push line }
      return .next none
    else
      throw (.unknownCallee callee)
  | .session call => execSessionCall f haltAfter i call
  | .br target => return .jump target
  | .condBr x thenTarget elseTarget =>
    let c ← integer f i x
    return .jump (if c ≠ 0 then thenTarget else elseTarget)
  | .switch x default cases =>
    let v ← integer f i x
    return .jump (((cases.find? (·.1 == v)).map (·.2)).getD default)
  | .ret none => return .leave none
  | .ret (some x) => return .leave (some (← operand f x))

def execInstruction (f : Function) (haltAfter : Option Nat) (i : Instruction) : Exec σ Flow := do
  let flow ← execOp f haltAfter i
  match i.result, flow with
  | some r, .next (some v) => modify fun s => { s with env := s.env.insert r v }
  | _, _ => pure ()
  return flow

end CheckpointRestart
