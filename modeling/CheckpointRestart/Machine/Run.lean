import CheckpointRestart.Machine.Step

/-! # Running a function

A run goes from block to block. On entry to a block its merges all read their incoming values
before any of them is defined. Every other instruction is a step, and a run has a limited number
of them.
-/

namespace CheckpointRestart

structure RunConfig where
  /-- The greatest number of steps. -/
  stepLimit : Nat := 100000000
  /-- Halt, as if killed, once that many checkpoints have been written. -/
  haltAfter : Option Nat := none
  deriving DecidableEq, Repr

/-- How a run ends if it does not fail. -/
inductive Outcome where
  | returned (value : Option Value)
  | halted (checkpoints : Nat)
  deriving DecidableEq, Repr

/-- A place in a function: a block and what is left of it. -/
structure Control where
  block : BlockId
  todo : List Instruction
  deriving DecidableEq, Repr

namespace Exec

variable {σ : Type}

/-- What a merge reads when control comes from `source`. -/
def incoming (f : Function) (source : Option BlockId) (i : Instruction) :
    Exec σ (Option (ValueId × Value)) := do
  match i.op with
  | .phi pairs =>
    let name := (source.map f.blockName).getD ""
    match source.bind fun p => pairs.find? (·.2 == p) with
    | none => throw (.missingIncoming (f.renderInstruction i) name)
    | some (x, _) =>
      let v ← operand f x
      return i.result.map (·, v)
  | _ => return none

/-- Goes to a block: its merges take effect together. -/
def enter (f : Function) (source : Option BlockId) (b : BlockId) : Exec σ Control := do
  let merged ← (f.block b).phis.mapM (incoming f source)
  modify fun s => { s with
    env := merged.foldl (fun env m => match m with
      | some (r, v) => env.insert r v
      | none => env) s.env }
  return ⟨b, (f.block b).afterPhis⟩

end Exec

/-- A run that goes on, or has come to its end. -/
inductive Progress (σ : Type) where
  | running (control : Control) (state : State σ)
  | done (result : Except ExecError Outcome) (state : State σ)

namespace Progress

variable {σ : Type}

def ofEnter : EStateM.Result ExecError (State σ) Control → Progress σ
  | .ok c s => running c s
  | .error e s => done (.error e) s

end Progress

variable {σ : Type} [Storage σ]

/-- Goes on after an instruction of `c` with the rest of its block. -/
def continueRun (f : Function) (c : Control) (rest : List Instruction) (s : State σ) :
    Flow → Progress σ
  | .next _ => .running { c with todo := rest } s
  | .jump b => .ofEnter (Exec.enter f (some c.block) b s)
  | .leave v => .done (.ok (.returned v)) s
  | .halt => .done (.ok (.halted s.session.stats.performed)) s

def advanceRun (f : Function) (config : RunConfig) (c : Control) (s : State σ) : Progress σ :=
  match c.todo with
  | [] => .done (.error (.type (f.blockName c.block) .noTerminator)) s
  | i :: rest =>
    match execInstruction f config.haltAfter i s with
    | .ok flow s => continueRun f c rest s flow
    | .error e s => .done (.error e) s

/-- Executes up to `steps` more instructions. -/
def continueSteps (f : Function) (config : RunConfig) :
    (steps : Nat) → Control → State σ → Except ExecError Outcome × State σ
  | 0, c, s =>
    if c.todo.isEmpty then (.error (.type (f.blockName c.block) .noTerminator), s)
    else (.error (.stepLimit config.stepLimit), s)
  | steps + 1, c, s =>
    match advanceRun f config c s with
    | .running c s => continueSteps f config steps c s
    | .done r s => (r, s)

def State.initial (session : Session Pointer σ) : State σ :=
  ⟨∅, .empty, #[], session⟩

def beginRun (f : Function) (args : List Value) (s : State σ) : Progress σ :=
  if args.length ≠ f.params.length then
    .done (.error (.argumentCount f.params.length args.length)) s
  else
    let env := (f.params.zip args).foldl (fun env (p, v) => env.insert p v) ∅
    .ofEnter (Exec.enter f none f.entry { s with env })

def runFunction (f : Function) (config : RunConfig) (args : List Value) (s : State σ) :
    Except ExecError Outcome × State σ :=
  match beginRun f args s with
  | .running c s => continueSteps f config config.stepLimit c s
  | .done r s => (r, s)

/-- Puts the argument strings into memory: an array of pointers to them, with a null pointer at
its end. Every string ends in a zero byte. -/
def Memory.storeArguments (m : Memory) (strings : List String) :
    Except MemoryFault (Pointer × Memory) := do
  let (vector, m) := m.allocate ((strings.length + 1) * 8)
  let m ← strings.zipIdx.foldlM (fun m (s, i) => do
    let bytes := s.toUTF8.toList
    let (p, m) := m.allocate (bytes.length + 1)
    let m ← m.write p bytes
    m.write (vector.add (.ofNat (8 * i))) ((Value.ptr p).encode 8)) m
  return (vector, m)

/-- The arguments of a function that is run as a program. If it takes an argument vector, its own
name comes first in there; otherwise it gets none. -/
def mainArguments (f : Function) (args : List String) (m : Memory) :
    Except MemoryFault (List Value × Memory) :=
  if f.takesArguments then do
    let strings := f.name :: args
    let (vector, m) ← m.storeArguments strings
    let bits := match f.params.head?.map f.valueType with
      | some (.int bits) => bits
      | _ => 32
    return ([.ofInt bits (.ofNat strings.length), .ptr vector], m)
  else .ok ([], m)

def beginMain (f : Function) (args : List String) (s : State σ) : Progress σ :=
  match mainArguments f args s.memory with
  | .error fault => .done (.error (.memory fault)) s
  | .ok (values, memory) => beginRun f values { s with memory }

def runMain (f : Function) (config : RunConfig) (args : List String) (s : State σ) :
    Except ExecError Outcome × State σ :=
  match beginMain f args s with
  | .running c s => continueSteps f config config.stepLimit c s
  | .done r s => (r, s)

end CheckpointRestart
