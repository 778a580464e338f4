import CheckpointRestart.Proofs.Machine.Soundness
import Mathlib.Algebra.Group.Nat.Defs
import Mathlib.Logic.Function.Iterate

/-! # What a step does

A step that does not end the run goes on with the next instruction or enters a block. Allocations
are added on the way and never taken away, and the number of bytes of an allocation never changes.
An operation that gives a pointer gives one to a new allocation, or into the allocation of a pointer
that it was given, unless it reads the pointer or makes it from bits.
-/

namespace CheckpointRestart

namespace Memory

variable {m m' m'' : Memory} {a n : Nat}

/-- The number of bytes of an allocation. -/
def length? (m : Memory) (a : Nat) : Option Nat :=
  (m.allocations[a]?).map (·.bytes.size)

/-- The allocations of `m` are there in `m'`, with as many bytes. -/
def Extends (m m' : Memory) : Prop :=
  ∀ a n, m.length? a = some n → m'.length? a = some n

theorem Extends.refl : m.Extends m :=
  fun _ _ h => h

theorem Extends.trans (h : m.Extends m') (h' : m'.Extends m'') : m.Extends m'' :=
  fun a n known => h' a n (h a n known)

theorem length?_eq_none_iff : m.length? a = none ↔ m.allocations.size ≤ a := by
  simp [length?]

theorem Extends.size_le (h : m.Extends m') : m.allocations.size ≤ m'.allocations.size := by
  by_contra less
  have there : m.length? m'.allocations.size ≠ none := by
    rw [ne_eq, length?_eq_none_iff]
    omega
  obtain ⟨n, hn⟩ := Option.ne_none_iff_exists'.mp there
  have last := h _ n hn
  rw [length?_eq_none_iff.2 (Nat.le_refl _)] at last
  cases last

theorem length?_allocate : (m.allocate n).2.length? a =
    if a = m.allocations.size then some n else m.length? a := by
  simp only [allocate, length?, Array.getElem?_push]
  split
  · simp
  · rfl

theorem extends_allocate (n : Nat) : m.Extends (m.allocate n).2 := by
  intro a k known
  rw [length?_allocate, if_neg, known]
  rintro rfl
  rw [length?_eq_none_iff.2 (Nat.le_refl _)] at known
  cases known

theorem allocation_allocate (few : (m.allocate n).2.allocations.size ≤ 2 ^ 32) :
    (m.allocate n).1.allocation.toNat = m.allocations.size := by
  have lt : m.allocations.size < 2 ^ 32 := by
    have : (m.allocate n).2.allocations.size = m.allocations.size + 1 := by simp [allocate]
    omega
  change (UInt32.ofNat m.allocations.size).toNat = _
  rw [UInt32.toNat_ofNat', Nat.mod_eq_of_lt lt]

theorem length?_modify {g : Allocation → Allocation} {p : Nat}
    (same : ∀ x, (g x).bytes.size = x.bytes.size) :
    (⟨m.allocations.modify p g⟩ : Memory).length? a = m.length? a := by
  simp only [length?, Array.getElem?_modify]
  split
  · cases m.allocations[a]? with
    | none => rfl
    | some x => exact congrArg some (same x)
  · rfl

theorem size_overwrite (bytes : Array UInt8) (start : Nat) (new : Bytes) :
    (overwrite bytes start new).size = bytes.size := by
  induction new generalizing bytes start with
  | nil => rfl
  | cons b rest ih => rw [overwrite, ih, Array.size_setIfInBounds]

theorem extends_put (p : Pointer) (bytes : Bytes) : m.Extends (m.put p bytes) := by
  intro a n known
  exact (length?_modify fun _ => size_overwrite _ _ _).trans known

theorem extends_write {p : Pointer} {bytes : Bytes} (h : m.write p bytes = .ok m') : m.Extends m' := by
  obtain ⟨_, -, h⟩ := bind_eq_ok_iff.1 h
  cases h
  exact extends_put p bytes

theorem extends_foldlM {α : Type} {g : Memory → α → Except MemoryFault Memory} {xs : List α}
    (each : ∀ m x m', g m x = .ok m' → m.Extends m') (h : xs.foldlM g m = .ok m') : m.Extends m' := by
  induction xs generalizing m with
  | nil =>
    cases h
    exact .refl
  | cons x xs ih =>
    rw [List.foldlM_cons] at h
    obtain ⟨next, one, rest⟩ := bind_eq_ok_iff.1 h
    exact (each _ _ _ one).trans (ih rest)

/-- The vector of arguments is allocated before the arguments. -/
theorem storeArguments_eq_ok {strings : List String} {p : Pointer}
    (h : m.storeArguments strings = .ok (p, m')) :
    p = (m.allocate ((strings.length + 1) * 8)).1 ∧
      (m.allocate ((strings.length + 1) * 8)).2.Extends m' := by
  obtain ⟨last, stored, h⟩ := bind_eq_ok_iff.1 h
  cases h
  refine ⟨rfl, extends_foldlM (fun m x m' one => ?_) stored⟩
  obtain ⟨filled, text, address⟩ := bind_eq_ok_iff.1 one
  exact ((extends_allocate _).trans (extends_write text)).trans (extends_write address)

theorem extends_free {p : Pointer} (h : m.free p = .ok m') : m.Extends m' := by
  unfold free at h
  split at h
  · cases h
    exact .refl
  · obtain ⟨x, -, h⟩ := bind_eq_ok_iff.1 h
    split at h
    · cases h
    · cases h
      have same : ∀ x : Allocation, ({ x with live := false } : Allocation).bytes.size = x.bytes.size :=
        fun _ => rfl
      intro a n known
      exact (length?_modify same).trans known

end Memory

namespace Exec

variable {σ α β : Type} {f : Function} {i : Instruction} {s t : State σ} {x : Operand}

theorem operand_eq_ok_iff {a : Value} :
    operand f x s = .ok a t ↔ s.env.operand? x = some a ∧ s = t := by
  cases found : s.env.operand? x with
  | some b =>
    rw [operand_of_some found]
    simp
  | none =>
    obtain ⟨v, rfl⟩ := Env.exists_of_operand?_eq_none found
    rw [operand_of_none found]
    simp

theorem operandAs_eq_ok_iff {fault : TypeFault} {kind? : Value → Option α} {a : α} :
    operandAs f i fault kind? x s = .ok a t ↔ (s.env.operand? x).bind kind? = some a ∧ s = t := by
  rw [operandAs, run_bind_eq_ok_iff]
  constructor
  · rintro ⟨b, u, read, rest⟩
    obtain ⟨found, rfl⟩ := operand_eq_ok_iff.1 read
    rw [found, Option.bind_some]
    cases hb : kind? b with
    | none =>
      rw [hb] at rest
      exact absurd rest run_throw_ne_ok
    | some c =>
      rw [hb] at rest
      obtain ⟨rfl, rfl⟩ := run_pure_eq_ok_iff.1 rest
      exact ⟨rfl, rfl⟩
  · rintro ⟨found, rfl⟩
    obtain ⟨b, hb, ha⟩ := Option.bind_eq_some_iff.mp found
    exact ⟨b, s, operand_eq_ok_iff.2 ⟨hb, rfl⟩, by rw [ha]; rfl⟩

theorem require_eq_ok_iff {fault : TypeFault} {o : Option α} {a : α} :
    (require f i fault o : Exec σ α) s = .ok a t ↔ o = some a ∧ s = t := by
  cases o with
  | none => exact iff_of_false run_throw_ne_ok (by simp)
  | some b => rw [require, run_pure_eq_ok_iff, Option.some.injEq]

theorem liftMemory_eq_ok_iff {r : Except MemoryFault α} {a : α} :
    (liftMemory r : Exec σ α) s = .ok a t ↔ r = .ok a ∧ s = t := by
  cases r with
  | error e => exact iff_of_false run_throw_ne_ok (by simp)
  | ok b => rw [liftMemory, run_pure_eq_ok_iff, Except.ok.injEq]

theorem liftRestore_eq_ok_iff {r : Except RestoreError α} {a : α} :
    (liftRestore r : Exec σ α) s = .ok a t ↔ r = .ok a ∧ s = t := by
  cases r with
  | error e => exact iff_of_false run_throw_ne_ok (by simp)
  | ok b => rw [liftRestore, run_pure_eq_ok_iff, Except.ok.injEq]

/-- Where the computation succeeds, memory is extended. -/
def Extends (m : Exec σ α) : Prop :=
  ∀ s a t, m s = .ok a t → s.memory.Extends t.memory

namespace Extends

theorem pure {a : α} : Extends (pure a : Exec σ α) := by
  intro s b t run
  obtain ⟨-, rfl⟩ := run_pure_eq_ok_iff.1 run
  exact .refl

theorem throw {e : ExecError} : Extends (throw e : Exec σ α) :=
  fun _ _ _ run => absurd run run_throw_ne_ok

theorem bind {m : Exec σ α} {k : α → Exec σ β} (h : Extends m) (next : ∀ a, Extends (k a)) :
    Extends (m >>= k) := by
  intro s b t run
  obtain ⟨a, u, first, rest⟩ := run_bind_eq_ok_iff.1 run
  exact (h s a u first).trans (next a u b t rest)

theorem get_bind {k : State σ → Exec σ β}
    (next : ∀ s b t, k s s = .ok b t → s.memory.Extends t.memory) : Extends (get >>= k) :=
  fun s b t run => next s b t run

theorem modify {g : State σ → State σ} (h : ∀ s : State σ, s.memory.Extends (g s).memory) :
    Extends (modify g : Exec σ PUnit) := by
  intro s u t run
  rw [run_modify_eq_ok_iff.1 run]
  exact h s

theorem operand : Extends (operand f x : Exec σ Value) := by
  intro s a t run
  obtain ⟨-, rfl⟩ := operand_eq_ok_iff.1 run
  exact .refl

theorem operandAs {fault : TypeFault} {kind? : Value → Option α} :
    Extends (operandAs f i fault kind? x : Exec σ α) := by
  intro s a t run
  obtain ⟨-, rfl⟩ := operandAs_eq_ok_iff.1 run
  exact .refl

theorem require {fault : TypeFault} {o : Option α} : Extends (require f i fault o : Exec σ α) := by
  intro s a t run
  obtain ⟨-, rfl⟩ := require_eq_ok_iff.1 run
  exact .refl

theorem mapM {k : α → Exec σ β} {xs : List α} (each : ∀ x, Extends (k x)) : Extends (xs.mapM k) := by
  induction xs with
  | nil => exact .pure
  | cons x xs ih =>
    rw [List.mapM_cons]
    exact (each x).bind fun _ => ih.bind fun _ => .pure

theorem allocate (n : Nat) : Extends (allocate n : Exec σ Flow) := by
  intro s a t run
  cases run
  exact Memory.extends_allocate n

end Extends

variable [Storage σ]

theorem extends_execSessionCall (haltAfter : Option Nat) (call : SessionCall) :
    Extends (execSessionCall f haltAfter i call : Exec σ Flow) := by
  have same : ∀ g : Session Pointer σ → Session Pointer σ, Extends (modifySession g) :=
    fun g => .modify fun _ => .refl
  cases call with
  | setup | start | restartFinish => exact (same _).bind fun _ => .pure
  | savePointer width count address =>
    refine Extends.operandAs.bind fun _ => Extends.operandAs.bind fun _ =>
      Extends.operandAs.bind fun p => .get_bind fun s b t run => ?_
    obtain ⟨_, _, tail, run⟩ := run_bind_eq_ok_iff.1 run
    obtain ⟨-, rfl⟩ := liftMemory_eq_ok_iff.1 tail
    exact ((same _).bind fun _ => .pure) _ b t run
  | saveAlias width count address candidates =>
    refine Extends.operandAs.bind fun _ => Extends.operandAs.bind fun _ =>
      Extends.operandAs.bind fun p => (Extends.mapM fun c => ?_).bind fun _ =>
        (same _).bind fun _ => .pure
    exact Extends.operandAs.bind fun _ => Extends.operandAs.bind fun _ =>
      Extends.operandAs.bind fun _ => .pure
  | finish =>
    refine .get_bind fun s b t run => ?_
    obtain ⟨written, session⟩ := s.session.finish
    dsimp only at run
    rw [run_modify_bind] at run
    split at run
    · obtain ⟨-, rfl⟩ := run_pure_eq_ok_iff.1 run
      exact .refl
    · obtain ⟨-, rfl⟩ := run_pure_eq_ok_iff.1 run
      exact .refl
  | restartLabel =>
    refine .get_bind fun s b t run => ?_
    obtain ⟨label, session⟩ := s.session.restartLabel
    dsimp only at run
    rw [run_modify_bind] at run
    obtain ⟨-, rfl⟩ := run_pure_eq_ok_iff.1 run
    exact .refl
  | readPointer width count address =>
    refine Extends.operandAs.bind fun _ => Extends.operandAs.bind fun _ =>
      Extends.operandAs.bind fun p => .get_bind fun s b t run => ?_
    obtain ⟨dest, _, tail, run⟩ := run_bind_eq_ok_iff.1 run
    obtain ⟨-, rfl⟩ := liftMemory_eq_ok_iff.1 tail
    obtain ⟨_, _, written, run⟩ := run_bind_eq_ok_iff.1 run
    cases written
    obtain ⟨_, _, restored, run⟩ := run_bind_eq_ok_iff.1 run
    obtain ⟨-, rfl⟩ := liftRestore_eq_ok_iff.1 restored
    cases run
    exact Memory.extends_put p _
  | readAlias width count =>
    refine Extends.operandAs.bind fun _ => Extends.operandAs.bind fun _ => .get_bind fun s b t run => ?_
    obtain ⟨_, _, written, run⟩ := run_bind_eq_ok_iff.1 run
    cases written
    obtain ⟨_, _, restored, run⟩ := run_bind_eq_ok_iff.1 run
    obtain ⟨-, rfl⟩ := liftRestore_eq_ok_iff.1 restored
    cases run
    exact .refl

theorem extends_execOp (haltAfter : Option Nat) : Extends (execOp f haltAfter i : Exec σ Flow) := by
  obtain ⟨r, op⟩ := i
  cases op with
  | alloca element count => exact .allocate _
  | malloc bytes => exact Extends.operandAs.bind fun _ => .allocate _
  | free x =>
    refine Extends.operandAs.bind fun p => .get_bind fun s b t run => ?_
    obtain ⟨m, _, free, run⟩ := run_bind_eq_ok_iff.1 run
    obtain ⟨freed, rfl⟩ := liftMemory_eq_ok_iff.1 free
    cases run
    exact Memory.extends_free freed
  | phi pairs => exact .throw
  | gep x index =>
    exact Extends.require.bind fun _ => Extends.operandAs.bind fun _ => Extends.operandAs.bind fun _ => .pure
  | cast x target => exact Extends.operand.bind fun _ => Extends.require.bind fun _ => .pure
  | load x =>
    refine Extends.require.bind fun _ => Extends.operandAs.bind fun p => .get_bind fun s b t run => ?_
    obtain ⟨bytes, _, read, run⟩ := run_bind_eq_ok_iff.1 run
    obtain ⟨-, rfl⟩ := liftMemory_eq_ok_iff.1 read
    exact (Extends.require.bind fun _ => .pure) _ b t run
  | store x y =>
    refine Extends.operand.bind fun _ => Extends.operandAs.bind fun p =>
      Extends.bind (.get_bind fun s b t run => ?_) fun _ => .pure
    obtain ⟨_, _, check, run⟩ := run_bind_eq_ok_iff.1 run
    obtain ⟨-, rfl⟩ := liftMemory_eq_ok_iff.1 check
    exact (Extends.modify fun s => Memory.extends_put p _) _ b t run
  | binary op x y =>
    refine Extends.operand.bind fun a => Extends.operand.bind fun b => ?_
    cases op.apply a b with
    | ok v => exact .pure
    | error fault => cases fault <;> exact .throw
  | compare rel x y =>
    exact Extends.operand.bind fun _ => Extends.operand.bind fun _ => Extends.require.bind fun _ => .pure
  | call callee args =>
    dsimp only [execOp]
    split
    · refine (Extends.mapM fun _ => .operand).bind fun values => ?_
      refine Extends.bind (.modify ?_) fun _ => .pure
      exact fun _ => .refl
    · exact .throw
  | session call => exact extends_execSessionCall haltAfter call
  | br target => exact .pure
  | condBr x thenTarget elseTarget => exact Extends.operandAs.bind fun _ => .pure
  | switch x default cases => exact Extends.operandAs.bind fun _ => .pure
  | ret value =>
    cases value with
    | none => exact .pure
    | some x => exact Extends.operand.bind fun _ => .pure

/-! ## Operations that give pointers -/

omit [Storage σ] in
theorem allocate_eq_ok {n : Nat} {flow : Flow} (run : allocate n s = .ok flow t) :
    flow = .next (some (.ptr (s.memory.allocate n).1)) ∧ t = { s with memory := (s.memory.allocate n).2 } := by
  cases run
  exact ⟨rfl, rfl⟩

variable {haltAfter : Option Nat} {flow : Flow}

theorem execOp_alloca {element : Ty} {count : UInt64} (hop : i.op = .alloca element count)
    (run : execOp f haltAfter i s = .ok flow t) :
    flow = .next (some (.ptr (s.memory.allocate (UInt64.ofNat element.storeSize * count).toNat).1)) ∧
      t.memory = (s.memory.allocate (UInt64.ofNat element.storeSize * count).toNat).2 := by
  simp only [execOp, hop] at run
  obtain ⟨rfl, rfl⟩ := allocate_eq_ok run
  exact ⟨rfl, rfl⟩

theorem execOp_malloc (hop : i.op = .malloc x) (run : execOp f haltAfter i s = .ok flow t) :
    ∃ a : Int64, (s.env.operand? x).bind Value.int? = some a ∧ 0 ≤ a ∧
      flow = .next (some (.ptr (s.memory.allocate a.toUInt64.toNat).1)) ∧
      t.memory = (s.memory.allocate a.toUInt64.toNat).2 := by
  simp only [execOp, hop] at run
  obtain ⟨n, u, read, run⟩ := run_bind_eq_ok_iff.1 run
  obtain ⟨found, rfl⟩ := operandAs_eq_ok_iff.1 read
  obtain ⟨rfl, rfl⟩ := allocate_eq_ok run
  obtain ⟨b, hb, size⟩ := Option.bind_eq_some_iff.mp found
  obtain ⟨a, ha, rfl⟩ := Option.map_eq_some_iff.mp size
  obtain ⟨ha, sign⟩ := Option.filter_eq_some_iff.mp ha
  exact ⟨a, by rw [hb, Option.bind_some, ha], by simpa using sign, rfl, rfl⟩

theorem execOp_gep {y : Operand} (hop : i.op = .gep x y) (run : execOp f haltAfter i s = .ok flow t) :
    ∃ (p : Pointer) (n : Int64), s.env.operand? x = some (.ptr p) ∧ flow = .next (some (.ptr (p.add n))) ∧
      t.memory = s.memory := by
  simp only [execOp, hop] at run
  obtain ⟨element, _, known, run⟩ := run_bind_eq_ok_iff.1 run
  obtain ⟨-, rfl⟩ := require_eq_ok_iff.1 known
  obtain ⟨p, _, read, run⟩ := run_bind_eq_ok_iff.1 run
  obtain ⟨found, rfl⟩ := operandAs_eq_ok_iff.1 read
  obtain ⟨n, _, index, run⟩ := run_bind_eq_ok_iff.1 run
  obtain ⟨-, rfl⟩ := operandAs_eq_ok_iff.1 index
  obtain ⟨rfl, rfl⟩ := run_pure_eq_ok_iff.1 run
  obtain ⟨b, hb, pointer⟩ := Option.bind_eq_some_iff.mp found
  obtain rfl : b = .ptr p := by
    cases b <;> simp_all [Value.pointer?]
  exact ⟨p, _, hb, rfl, rfl⟩

theorem execOp_cast {target : Ty} (hop : i.op = .cast x target)
    (run : execOp f haltAfter i s = .ok flow t) :
    ∃ a b, s.env.operand? x = some a ∧ a.cast? target = some b ∧ flow = .next (some b) ∧
      t.memory = s.memory := by
  simp only [execOp, hop] at run
  obtain ⟨a, _, read, run⟩ := run_bind_eq_ok_iff.1 run
  obtain ⟨found, rfl⟩ := operand_eq_ok_iff.1 read
  obtain ⟨b, _, known, run⟩ := run_bind_eq_ok_iff.1 run
  obtain ⟨cast, rfl⟩ := require_eq_ok_iff.1 known
  obtain ⟨rfl, rfl⟩ := run_pure_eq_ok_iff.1 run
  exact ⟨a, b, found, cast, rfl, rfl⟩

omit [Storage σ] in
theorem Ends.of_ok {errors : ExecError → ExecError → Prop} {results : α → β → Prop} {env env' : Env}
    {r : EStateM.Result ExecError (State σ) α} {r' : EStateM.Result ExecError (State σ) β} {a : α}
    (h : Ends errors results env env' r r') (run : r = .ok a t) : t.env = env ∧ ∃ b, results a b := by
  cases h with
  | @ok a b s same related =>
    cases run
    exact ⟨same, b, related⟩
  | error => cases run

omit [Storage σ] in
theorem Ends.of_error {errors : ExecError → ExecError → Prop} {results : α → β → Prop} {env env' : Env}
    {r : EStateM.Result ExecError (State σ) α} {r' : EStateM.Result ExecError (State σ) β} {e : ExecError}
    (h : Ends errors results env env' r r') (run : r = .error e t) : t.env = env := by
  cases h with
  | ok => cases run
  | error same _ =>
    cases run
    exact same

omit [Storage σ] in
theorem renamed_self (f : Function) (i : Instruction) (env : Env) :
    Renamed (fun _ _ => True) env env id f f i i :=
  ⟨rfl, (Op.mapOperands_eq_self fun _ _ => rfl).symm, fun _ _ => rfl, fun _ _ _ _ _ => trivial,
    fun _ _ => rfl, fun _ _ => rfl, fun _ _ => trivial, trivial, fun _ _ => trivial⟩

theorem execOp_env (run : execOp f haltAfter i s = .ok flow t) : t.env = s.env ∧ flow.Fits i.op := by
  obtain ⟨same, _, related⟩ := ((renamed_self f i s.env).agree_execOp haltAfter s rfl).of_ok run
  exact ⟨same, related.2⟩

theorem execOp_error {e : ExecError} (run : execOp f haltAfter i s = .error e t) : t.env = s.env :=
  ((renamed_self f i s.env).agree_execOp haltAfter s rfl).of_error run

/-! ## Operations that give nothing -/

/-- What holds of every result of a computation. -/
def Gives (m : Exec σ α) (holds : α → Prop) : Prop :=
  ∀ s a t, m s = .ok a t → holds a

namespace Gives

variable {holds : β → Prop}

omit [Storage σ] in
theorem pure {b : β} (h : holds b) : Gives (pure b : Exec σ β) holds := by
  intro s a t run
  obtain ⟨rfl, -⟩ := run_pure_eq_ok_iff.1 run
  exact h

omit [Storage σ] in
theorem throw {e : ExecError} : Gives (throw e : Exec σ β) holds :=
  fun _ _ _ run => absurd run run_throw_ne_ok

omit [Storage σ] in
theorem bind {m : Exec σ α} {k : α → Exec σ β} (next : ∀ a, Gives (k a) holds) :
    Gives (m >>= k) holds := by
  intro s b t run
  obtain ⟨a, u, -, rest⟩ := run_bind_eq_ok_iff.1 run
  exact next a u b t rest

end Gives

theorem gives_execOp : Gives (execOp f haltAfter i : Exec σ Flow) fun flow =>
    ∀ a, flow = .next (some a) → i.op.producesValue = true := by
  obtain ⟨r, op⟩ := i
  cases op with
  | alloca | malloc | phi | gep | cast | load | binary | compare => exact fun _ _ _ _ _ _ => rfl
  | free x => exact .bind fun _ => .bind fun _ => .bind fun _ => .bind fun _ => .pure nofun
  | store x y => exact .bind fun _ => .bind fun _ => .bind fun _ => .pure nofun
  | call callee args =>
    dsimp only [execOp]
    split
    · exact .bind fun _ => .bind fun _ => .pure nofun
    · exact .throw
  | br target => exact .pure nofun
  | condBr x thenTarget elseTarget => exact .bind fun _ => .pure nofun
  | switch x default cases => exact .bind fun _ => .pure nofun
  | ret value =>
    cases value with
    | none => exact .pure nofun
    | some x => exact .bind fun _ => .pure nofun
  | session call =>
    cases call with
    | restartLabel | readAlias => exact fun _ _ _ _ _ _ => rfl
    | setup | start | restartFinish => exact .bind fun _ => .pure nofun
    | savePointer =>
      exact .bind fun _ => .bind fun _ => .bind fun _ => .bind fun _ => .bind fun _ => .bind fun _ => .pure nofun
    | saveAlias =>
      exact .bind fun _ => .bind fun _ => .bind fun _ => .bind fun _ => .bind fun _ => .pure nofun
    | readPointer =>
      exact .bind fun _ => .bind fun _ => .bind fun _ => .bind fun _ => .bind fun _ => .bind fun _ =>
        .bind fun _ => .pure nofun
    | finish =>
      refine .bind fun s => ?_
      dsimp only
      refine .bind fun _ => ?_
      split
      · exact .pure nofun
      · exact .pure nofun

end Exec

/-! ## Steps of a run -/

theorem Flow.define_self {env : Env} {v : ValueId} {a : Value} :
    ((Flow.next (some a)).define (some v) env)[v]? = some a :=
  TreeMap.getElem?_insert_iff.trans (if_pos rfl)

namespace Progress

variable {σ : Type}

/-- The state that a run is in, or has ended in. -/
def state : Progress σ → State σ
  | .running _ s => s
  | .done _ s => s

variable [Storage σ]

/-- One step of a run that goes on. -/
def advance (f : Function) (config : RunConfig) : Progress σ → Progress σ
  | .running c s => advanceRun f config c s
  | .done r s => .done r s

end Progress

variable {σ : Type} [Storage σ] {f : Function} {config : RunConfig} {c c' : Control} {s s' : State σ}

/-- A step that does not end the run has executed an instruction, and goes on behind it or with
another block. -/
inductive Advanced (f : Function) (config : RunConfig) (c : Control) (s : State σ) : Control → State σ → Prop
  | next {i : Instruction} {rest : List Instruction} {result : Option Value} {t : State σ} :
    c.todo = i :: rest → execOp f config.haltAfter i s = .ok (.next result) t →
    Advanced f config c s ⟨c.block, rest⟩ { t with env := (Flow.next result).define i.result s.env }
  | jump {i : Instruction} {rest : List Instruction} {b : BlockId} {t : State σ} :
    c.todo = i :: rest → execOp f config.haltAfter i s = .ok (.jump b) t →
    (∀ j ∈ (f.block b).phis, ∃ a, s.env.incoming? c.block j = some a) →
    Advanced f config c s ⟨b, (f.block b).afterPhis⟩
      { t with env := s.env.merge c.block (f.block b).phis }

theorem advanced_of_running (run : advanceRun f config c s = .running c' s') :
    Advanced f config c s c' s' := by
  obtain ⟨b, todo⟩ := c
  cases todo with
  | nil => cases run
  | cons i rest =>
    simp only [advanceRun, execInstruction_run] at run
    cases exec : execOp f config.haltAfter i s with
    | error e t =>
      rw [exec] at run
      cases run
    | ok flow t =>
      have env := (Exec.execOp_env exec).1
      rw [exec] at run
      cases flow with
      | next result =>
        cases run
        rw [env]
        exact .next rfl exec
      | jump d =>
        change Progress.ofEnter (Exec.enter f (some b) d t) = _ at run
        cases enter : Exec.enter f (some b) d t with
        | error e u =>
          rw [enter] at run
          cases run
        | ok place u =>
          rw [enter] at run
          cases run
          obtain ⟨ready, rfl, rfl⟩ := Exec.enter_eq_ok enter
          rw [env] at ready ⊢
          exact .jump rfl exec ready
      | leave v => cases run
      | halt => cases run

theorem env_of_done {r : Except ExecError Outcome} (run : advanceRun f config c s = .done r s') :
    s'.env = s.env := by
  obtain ⟨b, todo⟩ := c
  cases todo with
  | nil =>
    cases run
    rfl
  | cons i rest =>
    simp only [advanceRun, execInstruction_run] at run
    cases exec : execOp f config.haltAfter i s with
    | error e t =>
      rw [exec] at run
      cases run
      exact Exec.execOp_error exec
    | ok flow t =>
      have env := (Exec.execOp_env exec).1
      rw [exec] at run
      cases flow with
      | next result => cases run
      | jump d =>
        change Progress.ofEnter (Exec.enter f (some b) d t) = _ at run
        rcases Exec.enter_cases f b d t with ready | ⟨e, failed⟩
        · rw [Exec.enter_run ready] at run
          cases run
        · rw [failed t fun _ _ => rfl] at run
          cases run
          exact env
      | leave v =>
        cases run
        exact env
      | halt =>
        cases run
        exact env

/-! ## Whole runs -/

omit [Storage σ] in
theorem state_beginRun (f : Function) (values : List Value) (s : State σ) :
    (∃ e, beginRun f values s = .done (.error e) s) ∨ (beginRun f values s).state =
      { s with env := (f.params.zip values).foldl (fun env m => env.insert m.1 m.2) ∅ } := by
  unfold beginRun
  split
  · exact .inl ⟨_, rfl⟩
  · right
    dsimp only
    rw [Exec.enter_none_run]
    cases (f.block f.entry).phis with
    | nil => rfl
    | cons i is => rfl

namespace Function

/-- Control has passed `done` in `b` and comes to `rest`. -/
structure Place (f : Function) (b : BlockId) (done rest : List Instruction) : Prop where
  reachable : f.Reachable b
  body : f.body b = done ++ rest
  plain : ∀ i ∈ rest, i.op.isPhi = false

variable {f : Function} {b d : BlockId} {done rest : List Instruction} {i : Instruction}

theorem Place.mem_body (h : f.Place b done (i :: rest)) : i ∈ f.body b := by
  rw [h.body]
  simp

theorem Place.mem_layout (h : f.Place b done rest) : b ∈ f.layout :=
  h.reachable.inside_end

end Function

section Places

variable (shaped : f.Shaped)

include shaped

theorem place_advanced {done : List Instruction} (place : f.Place c.block done c.todo)
    (run : Advanced f config c s c' s') : ∃ done, f.Place c'.block done c'.todo := by
  obtain ⟨b, todo⟩ := c
  cases run with
  | @next i rest result t todo_eq exec =>
    obtain rfl : todo = i :: rest := todo_eq
    refine ⟨done ++ [i], place.reachable, ?_, fun j hj => place.plain j (List.mem_cons_of_mem _ hj)⟩
    rw [List.append_assoc]
    exact place.body
  | @jump i rest d t todo_eq exec ready =>
    obtain rfl : todo = i :: rest := todo_eq
    have fits := (Exec.execOp_env exec).2
    obtain rfl := shaped.rest_eq_nil place.mem_layout place.body fits.1
    have edge : d ∈ f.successors b := Function.mem_successors_of_target place.body fits.2
    have reach : f.Reachable d := .step place.reachable edge (shaped.successor_mem place.mem_layout edge)
    exact ⟨(f.block d).phis, reach, List.takeWhile_append_dropWhile.symm,
      shaped.phisLead d reach.inside_end⟩

omit [Storage σ] in
theorem place_beginRun {values : List Value} (run : beginRun f values s = .running c s') :
    ∃ done, f.Place c.block done c.todo := by
  simp only [beginRun] at run
  split at run
  · cases run
  · rw [Exec.enter_none_run] at run
    cases none : (f.block f.entry).phis with
    | cons i is =>
      rw [none] at run
      cases run
    | nil =>
      rw [none] at run
      cases run
      have split : (f.block f.entry).phis ++ (f.block f.entry).afterPhis = f.body f.entry :=
        List.takeWhile_append_dropWhile
      exact ⟨(f.block f.entry).phis, .refl shaped.entry_mem, split.symm,
        shaped.phisLead f.entry shaped.entry_mem⟩

end Places

theorem exists_advanced {start : Progress σ} {n : Nat}
    (run : (Progress.advance f config)^[n + 1] start = .running c s) :
    ∃ c₀ s₀, (Progress.advance f config)^[n] start = .running c₀ s₀ ∧ Advanced f config c₀ s₀ c s := by
  rw [Function.iterate_succ_apply'] at run
  cases before : (Progress.advance f config)^[n] start with
  | done r t =>
    rw [before] at run
    cases run
  | running c₀ s₀ =>
    rw [before] at run
    exact ⟨c₀, s₀, rfl, advanced_of_running run⟩

/-- What holds where a run begins and is kept by its steps holds as long as it goes on. -/
theorem running_induction (motive : Control → State σ → Prop) {start : Progress σ} {n : Nat}
    (begins : ∀ c s, start = .running c s → motive c s)
    (step : ∀ c s c' s', motive c s → Advanced f config c s c' s' → motive c' s')
    (run : (Progress.advance f config)^[n] start = .running c s) : motive c s := by
  induction n generalizing c s with
  | zero => exact begins c s run
  | succ n ih =>
    obtain ⟨c₀, s₀, before, last⟩ := exists_advanced run
    exact step c₀ s₀ c s (ih before) last

end CheckpointRestart
