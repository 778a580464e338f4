import CheckpointRestart.Machine.Run
import CheckpointRestart.Proofs.Program.Edits

/-! # Two executions side by side

Two computations agree if, started in states that differ in nothing but the environment, they end
in such states again, and with related results or related errors. Instructions that read the same
values agree; it does not matter under which names they find them.
-/

namespace CheckpointRestart

/-- The value of an operand, if it has one. -/
def Env.operand? (env : Env) : Operand → Option Value
  | .const c => some (.ofConstant c)
  | .value v => env[v]?

theorem Env.exists_of_operand?_eq_none {env : Env} {x : Operand} (h : env.operand? x = none) :
    ∃ v, x = .value v := by
  cases x with
  | const c => cases h
  | value v => exact ⟨v, rfl⟩

/-- Faults in the form of a function, whatever it computes. -/
def TypeFault.isFormFault : TypeFault → Bool
  | .misplacedPhi | .noTerminator => true
  | _ => false

/-- Failures that are due to the form of a function: a value or an incoming value is missing, or an
instruction stands where it must not. -/
def ExecError.isFormFault : ExecError → Bool
  | .undefinedValue _ | .missingIncoming _ _ => true
  | .type _ fault => fault.isFormFault
  | _ => false

/-- What an instruction with the result `r` leaves of an environment. -/
def Flow.define (r : Option ValueId) (env : Env) : Flow → Env
  | .next (some v) => r.elim env (env.insert · v)
  | _ => env

/-- What can come after an operation. -/
def Flow.Fits (op : Op) : Flow → Prop
  | .next v => op.isTerminator = false ∧ (op.producesValue = true → v.isSome = true)
  | .jump b => op.isTerminator = true ∧ b ∈ op.targets
  | .leave _ => op.isTerminator = true
  | .halt => op.isTerminator = false

theorem Flow.Fits.effect {op : Op} {v : Option Value} (inner : op.isTerminator = false)
    (none : op.producesValue = false) : (Flow.next v).Fits op :=
  ⟨inner, fun produces => absurd produces (by simp [none])⟩

namespace Exec

variable {σ α β γ δ : Type} {errors : ExecError → ExecError → Prop} {env env' : Env}

theorem operand_of_some {f : Function} {x : Operand} {a : Value} {s : State σ}
    (h : s.env.operand? x = some a) : operand f x s = .ok a s := by
  cases x with
  | const c =>
    cases h
    rfl
  | value v =>
    have found : s.env[v]? = some a := h
    simp only [operand, run_get_bind, found]
    rfl

theorem operand_of_none {f : Function} {v : ValueId} {s : State σ}
    (h : s.env.operand? (.value v) = none) :
    operand f (.value v) s = .error (.undefinedValue (f.valueName v)) s := by
  have found : s.env[v]? = none := h
  simp only [operand, run_get_bind, found]
  rfl

/-- Ends that agree. An environment is not changed on the way. -/
inductive Ends (errors : ExecError → ExecError → Prop) (results : α → β → Prop) (env env' : Env) :
    EStateM.Result ExecError (State σ) α → EStateM.Result ExecError (State σ) β → Prop
  | ok {a : α} {b : β} {s : State σ} : s.env = env → results a b →
    Ends errors results env env' (.ok a s) (.ok b { s with env := env' })
  | error {e e' : ExecError} {s : State σ} : s.env = env → errors e e' →
    Ends errors results env env' (.error e s) (.error e' { s with env := env' })

def Agree (errors : ExecError → ExecError → Prop) (env env' : Env) (results : α → β → Prop)
    (m : Exec σ α) (m' : Exec σ β) : Prop :=
  ∀ s : State σ, s.env = env → Ends errors results env env' (m s) (m' { s with env := env' })

namespace Agree

variable {results : α → β → Prop} {m : Exec σ α} {m' : Exec σ β}

theorem pure {a : α} {b : β} (h : results a b) :
    Agree errors env env' results (pure a : Exec σ α) (pure b) :=
  fun _ same => .ok same h

theorem throw {e e' : ExecError} (h : errors e e') :
    Agree errors env env' results (throw e : Exec σ α) (throw e') :=
  fun _ same => .error same h

theorem bind {results' : γ → δ → Prop} {k : α → Exec σ γ} {k' : β → Exec σ δ}
    (h : Agree errors env env' results m m')
    (next : ∀ a b, results a b → Agree errors env env' results' (k a) (k' b)) :
    Agree errors env env' results' (m >>= k) (m' >>= k') := by
  intro s same
  change Ends _ _ _ _ (EStateM.bind m k s) (EStateM.bind m' k' _)
  unfold EStateM.bind
  generalize hm : m s = r
  generalize hm' : m' { s with env := env' } = r'
  have ends := h s same
  rw [hm, hm'] at ends
  cases ends with
  | ok same' related => exact next _ _ related _ same'
  | error same' related => exact .error same' related

theorem get : Agree errors env env'
    (fun s t : State σ => s.env = env ∧ t = { s with env := env' }) get get :=
  fun _ same => .ok same ⟨same, rfl⟩

theorem set {s : State σ} (same : s.env = env) :
    Agree errors env env' (fun _ _ => True) (set s : Exec σ PUnit) (set { s with env := env' }) :=
  fun _ _ => .ok same trivial

theorem modify {g g' : State σ → State σ} (keeps : ∀ s, (g s).env = s.env)
    (alike : ∀ s, g' { s with env := env' } = { g s with env := env' }) :
    Agree errors env env' (fun _ _ => True) (modify g : Exec σ PUnit) (modify g') := by
  intro s same
  change Ends _ _ _ _ (.ok () (g s)) (.ok () (g' _))
  rw [alike]
  exact .ok ((keeps s).trans same) trivial

theorem mono {results' : α → β → Prop} (h : Agree errors env env' results m m')
    (weaker : ∀ a b, results a b → results' a b) : Agree errors env env' results' m m' := by
  intro s same
  generalize hm : m s = r
  generalize hm' : m' { s with env := env' } = r'
  have ends := h s same
  rw [hm, hm'] at ends
  cases ends with
  | ok same' related => exact .ok same' (weaker _ _ related)
  | error same' related => exact .error same' related

end Agree

theorem Agree.mapM {k : γ → Exec σ α} {k' : δ → Exec σ α} {rename : γ → δ} {xs : List γ}
    (each : ∀ x ∈ xs, Agree errors env env' Eq (k x) (k' (rename x))) :
    Agree errors env env' Eq (xs.mapM k) ((xs.map rename).mapM k') := by
  induction xs with
  | nil => exact .pure rfl
  | cons x xs ih =>
    rw [List.map_cons, List.mapM_cons, List.mapM_cons]
    refine (each x List.mem_cons_self).bind ?_
    rintro a _ rfl
    refine (ih fun y hy => each y (List.mem_cons_of_mem _ hy)).bind ?_
    rintro as _ rfl
    exact .pure rfl

end Exec

open Exec

variable {σ : Type} {errors : ExecError → ExecError → Prop} {env env' : Env}

/-- The second instruction reads, under other names, what the first one reads. -/
structure Renamed (errors : ExecError → ExecError → Prop) (env env' : Env) (rename : Operand → Operand)
    (f g : Function) (i j : Instruction) : Prop where
  result : j.result = i.result
  op : j.op = i.op.mapOperands rename
  values : ∀ x ∈ i.op.operands, env'.operand? (rename x) = env.operand? x
  names : ∀ v w, .value v ∈ i.op.operands → env.operand? (.value v) = none →
    rename (.value v) = .value w →
    errors (.undefinedValue (f.valueName v)) (.undefinedValue (g.valueName w))
  types : ∀ x ∈ i.op.operands, g.operandType (rename x) = f.operandType x
  type : ∀ r, i.result = some r → g.valueType r = f.valueType r
  faults : ∀ fault, (fault.isFormFault = true → i.op.isPhi = true) →
    errors (.type (f.renderInstruction i) fault) (.type (g.renderInstruction j) fault)
  division : errors (.divisionByZero (f.renderInstruction i)) (.divisionByZero (g.renderInstruction j))
  same : ∀ e, e.isFormFault = false → errors e e

namespace Renamed

variable {rename : Operand → Operand} {f g : Function} {i j : Instruction}

section Operands

variable (h : Renamed errors env env' rename f g i j) {x : Operand} (hx : x ∈ i.op.operands)

include h hx

theorem operand : Agree errors env env' Eq (operand f x : Exec σ Value) (operand g (rename x)) := by
  intro s same
  have values := h.values x hx
  cases found : env.operand? x with
  | some a =>
    rw [found] at values
    rw [operand_of_some (same ▸ found), operand_of_some values]
    exact .ok same rfl
  | none =>
    obtain ⟨v, rfl⟩ := Env.exists_of_operand?_eq_none found
    rw [found] at values
    obtain ⟨w, hw⟩ := Env.exists_of_operand?_eq_none values
    rw [hw] at values ⊢
    rw [operand_of_none (same ▸ found), operand_of_none values]
    exact .error same (h.names v w hx found hw)

theorem operandAs {α : Type} {fault : TypeFault} (inner : fault.isFormFault = false)
    (kind? : Value → Option α) :
    Agree errors env env' Eq (operandAs f i fault kind? x : Exec σ α)
      (operandAs g j fault kind? (rename x)) := by
  refine (h.operand hx).bind ?_
  rintro a _ rfl
  split
  · exact .pure rfl
  · exact .throw (h.faults fault fun form => absurd form (by simp [inner]))

theorem integer : Agree errors env env' Eq (integer f i x : Exec σ Int64) (integer g j (rename x)) :=
  h.operandAs hx rfl _

theorem size : Agree errors env env' Eq (size f i x : Exec σ UInt64) (size g j (rename x)) :=
  h.operandAs hx rfl _

theorem pointer :
    Agree errors env env' Eq (pointer f i x : Exec σ Pointer) (pointer g j (rename x)) :=
  h.operandAs hx rfl _

end Operands

variable (h : Renamed errors env env' rename f g i j)

include h

theorem require {α : Type} {fault : TypeFault} (inner : fault.isFormFault = false) (x : Option α) :
    Agree errors env env' Eq (require f i fault x : Exec σ α) (require g j fault x) := by
  cases x with
  | none => exact .throw (h.faults fault fun form => absurd form (by simp [inner]))
  | some a => exact .pure rfl

theorem liftMemory {α : Type} (x : Except MemoryFault α) :
    Agree errors env env' Eq (liftMemory x : Exec σ α) (liftMemory x) := by
  cases x with
  | error fault => exact .throw (h.same _ rfl)
  | ok a => exact .pure rfl

theorem liftRestore {α : Type} (x : Except RestoreError α) :
    Agree errors env env' Eq (liftRestore x : Exec σ α) (liftRestore x) := by
  cases x with
  | error cause => exact .throw (h.same _ rfl)
  | ok a => exact .pure rfl

theorem write (p : Pointer) (bytes : Bytes) :
    Agree errors env env' (fun _ _ => True) (write p bytes : Exec σ Unit) (write p bytes) := by
  refine Agree.get.bind ?_
  rintro s _ ⟨same, rfl⟩
  refine (h.liftMemory _).bind fun _ _ _ => ?_
  exact .modify (fun _ => rfl) fun _ => rfl

/-- What is done with the sizes and the address of a region. -/
theorem region {γ δ : Type} {results : γ → δ → Prop} {width count address : Operand}
    {k : UInt64 → UInt64 → Pointer → Exec σ γ} {k' : UInt64 → UInt64 → Pointer → Exec σ δ}
    (hw : width ∈ i.op.operands) (hn : count ∈ i.op.operands) (ha : address ∈ i.op.operands)
    (next : ∀ w n p, Agree errors env env' results (k w n p) (k' w n p)) :
    Agree errors env env' results
      (do k (← Exec.size f i width) (← Exec.size f i count) (← Exec.pointer f i address))
      (do k' (← Exec.size g j (rename width)) (← Exec.size g j (rename count))
            (← Exec.pointer g j (rename address))) := by
  refine (h.size hw).bind ?_
  rintro w _ rfl
  refine (h.size hn).bind ?_
  rintro n _ rfl
  refine (h.pointer ha).bind ?_
  rintro p _ rfl
  exact next w n p

variable [Storage σ]

theorem agree_execSessionCall (haltAfter : Option Nat) {call : SessionCall} (hop : i.op = .session call) :
    Agree errors env env' (fun a b => a = b ∧ a.Fits i.op)
      (execSessionCall f haltAfter i call : Exec σ Flow)
      (execSessionCall g haltAfter j (call.mapOperands rename)) := by
  have mem : ∀ x, x ∈ call.operands → x ∈ i.op.operands := fun x hx => by rwa [hop]
  have session : ∀ change : Session Pointer σ → Session Pointer σ,
      Agree errors env env' (fun _ _ => True) (modifySession change) (modifySession change) :=
    fun change => .modify (fun _ => rfl) fun _ => rfl
  rw [hop]
  cases call with
  | setup => exact (session _).bind fun _ _ _ => .pure ⟨rfl, .effect rfl rfl⟩
  | start label count => exact (session _).bind fun _ _ _ => .pure ⟨rfl, .effect rfl rfl⟩
  | restartFinish => exact (session _).bind fun _ _ _ => .pure ⟨rfl, .effect rfl rfl⟩
  | savePointer width count address =>
    refine h.region (mem width (by simp [SessionCall.operands])) (mem count (by simp [SessionCall.operands]))
      (mem address (by simp [SessionCall.operands])) fun w n p => ?_
    refine Agree.get.bind ?_
    rintro s _ ⟨same, rfl⟩
    refine (h.liftMemory _).bind ?_
    rintro memory _ rfl
    exact (session _).bind fun _ _ _ => .pure ⟨rfl, .effect rfl rfl⟩
  | saveAlias width count address candidates =>
    refine h.region (mem width (by simp [SessionCall.operands])) (mem count (by simp [SessionCall.operands]))
      (mem address (by simp [SessionCall.operands])) fun w n p => ?_
    refine (Agree.mapM fun c hc => ?_).bind ?_
    · have all : c.width ∈ i.op.operands ∧ c.count ∈ i.op.operands ∧ c.address ∈ i.op.operands := by
        refine ⟨mem _ ?_, mem _ ?_, mem _ ?_⟩
        · exact List.mem_append_right _ (List.mem_flatMap.mpr ⟨c, hc, by simp⟩)
        · exact List.mem_append_right _ (List.mem_flatMap.mpr ⟨c, hc, by simp⟩)
        · exact List.mem_append_right _ (List.mem_flatMap.mpr ⟨c, hc, by simp⟩)
      exact h.region all.1 all.2.1 all.2.2 fun w n p => .pure rfl
    · rintro cs _ rfl
      exact (session _).bind fun _ _ _ => .pure ⟨rfl, .effect rfl rfl⟩
  | finish =>
    refine Agree.get.bind ?_
    rintro s _ ⟨same, rfl⟩
    dsimp only
    generalize s.session.finish = out
    refine (session fun _ => out.2).bind fun _ _ _ => ?_
    split
    · exact .pure ⟨rfl, rfl⟩
    · exact .pure ⟨rfl, .effect rfl rfl⟩
  | restartLabel =>
    refine Agree.get.bind ?_
    rintro s _ ⟨same, rfl⟩
    refine (session fun _ => s.session.restartLabel.2).bind fun _ _ _ => ?_
    exact .pure ⟨rfl, rfl, fun _ => rfl⟩
  | readPointer width count address =>
    refine h.region (mem width (by simp [SessionCall.operands])) (mem count (by simp [SessionCall.operands]))
      (mem address (by simp [SessionCall.operands])) fun w n p => ?_
    refine Agree.get.bind ?_
    rintro s _ ⟨same, rfl⟩
    refine (h.liftMemory _).bind ?_
    rintro dest _ rfl
    refine (Agree.set ?_).bind fun _ _ _ => ?_
    · exact same
    · exact (h.liftRestore _).bind fun _ _ _ => .pure ⟨rfl, .effect rfl rfl⟩
  | readAlias width count =>
    refine (h.size (mem width (by simp [SessionCall.operands]))).bind ?_
    rintro w _ rfl
    refine (h.size (mem count (by simp [SessionCall.operands]))).bind ?_
    rintro n _ rfl
    refine Agree.get.bind ?_
    rintro s _ ⟨same, rfl⟩
    refine (Agree.set ?_).bind fun _ _ _ => ?_
    · exact same
    · refine (h.liftRestore _).bind ?_
      rintro p _ rfl
      exact .pure ⟨rfl, rfl, fun _ => rfl⟩

theorem agree_execOp (haltAfter : Option Nat) :
    Agree errors env env' (fun a b => a = b ∧ a.Fits i.op)
      (execOp f haltAfter i : Exec σ Flow) (execOp g haltAfter j) := by
  obtain ⟨r, op⟩ := i
  obtain ⟨r', op'⟩ := j
  obtain rfl : r' = r := h.result
  obtain rfl : op' = op.mapOperands rename := h.op
  have memory : ∀ m, Agree errors env env' (fun _ _ => True) (setMemory m : Exec σ Unit) (setMemory m) :=
    fun m => .modify (fun _ => rfl) fun _ => rfl
  have print : ∀ line, Agree errors env env' (fun _ _ => True)
      (modify fun s => { s with output := s.output.push line } : Exec σ PUnit)
      (modify fun s => { s with output := s.output.push line }) :=
    fun line => .modify (fun _ => rfl) fun _ => rfl
  have allocate : ∀ n, Agree errors env env'
      (fun a b => a = b ∧ ∃ p : Pointer, a = .next (some (.ptr p)))
      (allocate n : Exec σ Flow) (allocate n) := fun n s same => .ok same ⟨rfl, _, rfl⟩
  cases op with
  | alloca element count =>
    refine (allocate _).mono ?_
    rintro a _ ⟨rfl, p, rfl⟩
    exact ⟨rfl, rfl, fun _ => rfl⟩
  | malloc bytes =>
    refine (h.size (by simp [Op.operands])).bind ?_
    rintro n _ rfl
    refine (allocate _).mono ?_
    rintro a _ ⟨rfl, p, rfl⟩
    exact ⟨rfl, rfl, fun _ => rfl⟩
  | free x =>
    refine (h.pointer (by simp [Op.operands])).bind ?_
    rintro p _ rfl
    refine Agree.get.bind ?_
    rintro s _ ⟨same, rfl⟩
    refine (h.liftMemory _).bind ?_
    rintro m _ rfl
    exact (memory m).bind fun _ _ _ => .pure ⟨rfl, .effect rfl rfl⟩
  | phi pairs => exact .throw (h.faults _ fun _ => rfl)
  | gep x index =>
    dsimp only [execOp, Op.mapOperands]
    rw [h.types x (by simp [Op.operands])]
    refine (h.require rfl _).bind ?_
    rintro element _ rfl
    refine (h.pointer (by simp [Op.operands])).bind ?_
    rintro p _ rfl
    refine (h.integer (by simp [Op.operands])).bind ?_
    rintro n _ rfl
    exact .pure ⟨rfl, rfl, fun _ => rfl⟩
  | cast x target =>
    refine (h.operand (by simp [Op.operands])).bind ?_
    rintro a _ rfl
    refine (h.require rfl _).bind ?_
    rintro b _ rfl
    exact .pure ⟨rfl, rfl, fun _ => rfl⟩
  | load x =>
    cases r' with
    | none => exact .throw (h.faults _ fun form => by cases form)
    | some r =>
      refine (h.pointer (by simp [Op.operands])).bind ?_
      rintro p _ rfl
      refine Agree.get.bind ?_
      rintro s _ ⟨same, rfl⟩
      rw [h.type r rfl]
      refine (h.liftMemory _).bind ?_
      rintro bytes _ rfl
      refine (h.require rfl _).bind ?_
      rintro a _ rfl
      exact .pure ⟨rfl, rfl, fun _ => rfl⟩
  | store x y =>
    refine (h.operand (by simp [Op.operands])).bind ?_
    rintro a _ rfl
    refine (h.pointer (by simp [Op.operands])).bind ?_
    rintro p _ rfl
    rw [h.types x (by simp [Op.operands])]
    exact (h.write _ _).bind fun _ _ _ => .pure ⟨rfl, .effect rfl rfl⟩
  | binary op x y =>
    refine (h.operand (by simp [Op.operands])).bind ?_
    rintro a _ rfl
    refine (h.operand (by simp [Op.operands])).bind ?_
    rintro b _ rfl
    cases op.apply a b with
    | ok v => exact .pure ⟨rfl, rfl, fun _ => rfl⟩
    | error fault =>
      cases fault with
      | divisionByZero => exact .throw h.division
      | operands => exact .throw (h.faults _ fun form => by cases form)
  | compare rel x y =>
    refine (h.operand (by simp [Op.operands])).bind ?_
    rintro a _ rfl
    refine (h.operand (by simp [Op.operands])).bind ?_
    rintro b _ rfl
    refine (h.require rfl _).bind ?_
    rintro order _ rfl
    exact .pure ⟨rfl, rfl, fun _ => rfl⟩
  | call callee args =>
    dsimp only [execOp, Op.mapOperands]
    split
    · refine (Agree.mapM fun x hx => h.operand hx).bind ?_
      rintro values _ rfl
      exact (print _).bind fun _ _ _ => .pure ⟨rfl, .effect rfl rfl⟩
    · exact .throw (h.same _ rfl)
  | session call => exact h.agree_execSessionCall haltAfter rfl
  | br target => exact .pure ⟨rfl, rfl, by simp [Op.targets]⟩
  | condBr x thenTarget elseTarget =>
    refine (h.integer (by simp [Op.operands])).bind ?_
    rintro n _ rfl
    refine .pure ⟨rfl, rfl, ?_⟩
    split
    · simp [Op.targets]
    · simp [Op.targets]
  | switch x default cases =>
    refine (h.integer (by simp [Op.operands])).bind ?_
    rintro n _ rfl
    refine .pure ⟨rfl, rfl, ?_⟩
    cases found : cases.find? (·.1 == n) with
    | none => simp [Op.targets]
    | some c => exact List.mem_cons_of_mem _ (List.mem_map_of_mem (List.mem_of_find?_eq_some found))
  | ret value =>
    cases value with
    | none => exact .pure ⟨rfl, rfl⟩
    | some x =>
      refine (h.operand (by simp [Op.operands])).bind ?_
      rintro a _ rfl
      exact .pure ⟨rfl, rfl⟩

end Renamed

variable [Storage σ] {f g : Function} {i j : Instruction} {s : State σ}

theorem execInstruction_run (f : Function) (haltAfter : Option Nat) (i : Instruction) (s : State σ) :
    execInstruction f haltAfter i s = match execOp f haltAfter i s with
      | .ok flow t => .ok flow { t with env := flow.define i.result t.env }
      | .error e t => .error e t := by
  change EStateM.bind (execOp f haltAfter i) _ s = _
  unfold EStateM.bind
  cases execOp f haltAfter i s with
  | error e t => rfl
  | ok flow t =>
    cases hr : i.result with
    | none => cases flow with
      | next v => cases v <;> rfl
      | _ => rfl
    | some r => cases flow with
      | next v => cases v <;> rfl
      | _ => rfl

/-- Two instructions executed side by side either fail, or go on in the same way, and both define
the same value then. -/
inductive Stepped (errors : ExecError → ExecError → Prop) (op : Op) (r : Option ValueId) (env env' : Env) :
    EStateM.Result ExecError (State σ) Flow → EStateM.Result ExecError (State σ) Flow → Prop
  | ok {flow : Flow} {s : State σ} : flow.Fits op →
    Stepped errors op r env env' (.ok flow { s with env := flow.define r env })
      (.ok flow { s with env := flow.define r env' })
  | error {e e' : ExecError} {s : State σ} : errors e e' →
    Stepped errors op r env env' (.error e { s with env := env }) (.error e' { s with env := env' })

theorem Renamed.stepped {rename : Operand → Operand}
    (h : Renamed errors env env' rename f g i j) (haltAfter : Option Nat) (same : s.env = env) :
    Stepped errors i.op i.result env env' (execInstruction f haltAfter i s)
      (execInstruction g haltAfter j { s with env := env' }) := by
  rw [execInstruction_run, execInstruction_run, h.result]
  have ends := h.agree_execOp haltAfter s same
  generalize execOp f haltAfter i s = r at ends
  generalize execOp g haltAfter j { s with env := env' } = r' at ends
  cases ends with
  | ok same' related =>
    obtain ⟨rfl, fits⟩ := related
    subst same'
    exact .ok fits
  | error same' related =>
    subst same'
    exact .error related

end CheckpointRestart
