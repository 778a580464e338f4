import CheckpointRestart.Proofs.Program.Reader.Operation
import CheckpointRestart.Proofs.Program.Reader.Outcome
import Mathlib.Data.List.MinMax

/-! # Types follow from types

The third pass types the results of loads, address computations and binary operations, one after the
other, from the types known so far. When it is done, the values can be ranked so that each of these
types follows from operands of smaller rank. Conversely, if the values can be ranked like that, the
third pass types them all, in whichever order they come, as long as no pointer is the result of a
binary operation: what a binary operation gets depends on which of its operands is known first.
-/

namespace CheckpointRestart

/-- The type of an operand if values have the types `τ`. -/
def Operand.typeIn (τ : ValueId → Ty) : Operand → Ty
  | value v => τ v
  | const c => c.type

/-- If the operand is a value, it is one of smaller rank than `v`. -/
def Operand.Precedes (rank : ValueId → Nat) (v : ValueId) (x : Operand) : Prop :=
  ∀ w, x = .value w → rank w < rank v

/-- The type of `v` is spelled out by the operation that defines it, or follows from operands of
smaller rank. -/
def Op.Follows (τ : ValueId → Ty) (rank : ValueId → Nat) (v : ValueId) : Op → Prop
  | load x => x.typeIn τ = .ptr (τ v) ∧ x.Precedes rank v
  | gep x _ => (τ v).isPointer = true ∧ x.typeIn τ = τ v ∧ x.Precedes rank v
  | binary _ x y => ((x.typeIn τ).isVoid = false ∧ x.Precedes rank v) ∨
    ((y.typeIn τ).isVoid = false ∧ y.Precedes rank v)
  | op => op.spelled? (τ v) = some (τ v)

/-- The operations whose results get their types from the third pass. -/
def Op.isInferred : Op → Bool
  | load _ | gep _ _ | binary _ _ _ => true
  | _ => false

theorem Ty.isVoid_of_isPointer {t : Ty} (h : t.isPointer = true) : t.isVoid = false := by
  cases t with
  | ptr t => rfl
  | _ => cases h

def Operand.canonical (x : Operand) : Operand :=
  x.reread id

def Op.canonical (op : Op) : Op :=
  op.mapOperands Operand.canonical

section Follows

variable {τ τ' : ValueId → Ty} {rank rank' : ValueId → Nat} {v : ValueId} {x : Operand} {op : Op}

theorem Op.Follows.mono (h : op.Follows τ rank v) (here : τ' v = τ v)
    (types : ∀ w, (τ w).isVoid = false → τ' w = τ w)
    (ranks : ∀ w, (τ w).isVoid = false → rank w < rank v → rank' w < rank' v) :
    op.Follows τ' rank' v := by
  have typed {x : Operand} (hx : (x.typeIn τ).isVoid = false) : x.typeIn τ' = x.typeIn τ := by
    cases x with
    | value w => exact types w hx
    | const c => rfl
  have below {x : Operand} (hx : (x.typeIn τ).isVoid = false) (le : x.Precedes rank v) :
      x.Precedes rank' v := by
    rintro w rfl
    exact ranks w hx (le w rfl)
  cases op with
  | load x =>
    obtain ⟨type, le⟩ := h
    have known : (x.typeIn τ).isVoid = false := by rw [type]; rfl
    exact ⟨by rw [typed known, type, here], below known le⟩
  | gep x y =>
    obtain ⟨pointer, type, le⟩ := h
    have known : (x.typeIn τ).isVoid = false := by rw [type, Ty.isVoid_of_isPointer pointer]
    exact ⟨by rw [here, pointer], by rw [typed known, type, here], below known le⟩
  | binary o x y =>
    rcases h with ⟨known, le⟩ | ⟨known, le⟩
    · exact .inl ⟨by rw [typed known, known], below known le⟩
    · exact .inr ⟨by rw [typed known, known], below known le⟩
  | _ =>
    unfold Op.Follows at h ⊢
    rwa [here]

end Follows

namespace Reader

open CheckpointRestart.Function

variable {f f' : Function} {v w : ValueId} {x : Operand} {op : Op} {t : Ty} {line : Nat}
  {τ : ValueId → Ty} {rank : ValueId → Nat} {n : Nat} {d : ValueId → Option Op}

/-! ## One operation -/

theorem knownType?_eq_some_iff : knownType? f x = some t ↔ f.operandType x = t ∧ t.isVoid = false := by
  unfold knownType?
  by_cases h : (f.operandType x).isVoid = true
  · simp only [h, if_true, reduceCtorEq, false_iff, not_and]
    rintro rfl
    simp [h]
  · simp only [h, if_false, Option.some.injEq, Bool.false_eq_true]
    constructor
    · rintro rfl
      exact ⟨rfl, by simpa using h⟩
    · exact fun e => e.1

theorem knownType?_of_void (h : (f.operandType x).isVoid = true) : knownType? f x = none := by
  simp [knownType?, h]

/-- The ways in which a type is inferred. -/
inductive Yields (f : Function) (t : Ty) : Op → Prop
  | load {x : Operand} : f.operandType x = .ptr t → Yields f t (.load x)
  | gep {x y : Operand} : t.isPointer = true → f.operandType x = t → Yields f t (.gep x y)
  | left {o : BinaryOp} {x y : Operand} : f.operandType x = t → t.isVoid = false →
    Yields f t (.binary o x y)
  | right {o : BinaryOp} {x y : Operand} : f.operandType y = t → t.isVoid = false →
    Yields f t (.binary o x y)

theorem yields_of_inferOp (h : inferOp f line op = .ok (some t)) : Yields f t op := by
  cases op with
  | load x =>
    simp only [inferOp] at h
    split at h
    · next known =>
      cases h
      exact .load (knownType?_eq_some_iff.1 known).1
    · cases h
    · cases h
  | gep x y =>
    simp only [inferOp] at h
    split at h
    · next known =>
      split at h
      · next pointer =>
        cases h
        exact .gep pointer (knownType?_eq_some_iff.1 known).1
      · cases h
    · cases h
  | binary o x y =>
    rw [inferOp, Except.ok.injEq, Option.or_eq_some_iff] at h
    rcases h with known | ⟨-, known⟩
    · exact .left (knownType?_eq_some_iff.1 known).1 (knownType?_eq_some_iff.1 known).2
    · exact .right (knownType?_eq_some_iff.1 known).1 (knownType?_eq_some_iff.1 known).2
  | _ => cases h

theorem Yields.isInferred (h : Yields f t op) : op.isInferred = true := by
  cases h <;> rfl

/-- A type that is inferred follows from what was known before. -/
theorem Yields.follows (h : Yields f t op) (here : τ v = t)
    (types : ∀ w, (f.valueType w).isVoid = false → τ w = f.valueType w)
    (ranks : ∀ w, (f.valueType w).isVoid = false → rank w < rank v) : op.Follows τ rank v := by
  have typed {x : Operand} (known : (f.operandType x).isVoid = false) :
      x.typeIn τ = f.operandType x ∧ x.Precedes rank v := by
    cases x with
    | value w =>
      refine ⟨types w known, ?_⟩
      rintro _ ⟨⟩
      exact ranks w known
    | const c => exact ⟨rfl, fun w e => by cases e⟩
  cases h with
  | @load x type =>
    obtain ⟨e, le⟩ := typed (x := x) (by rw [type]; rfl)
    exact ⟨by rw [e, type, here], le⟩
  | @gep x y pointer type =>
    obtain ⟨e, le⟩ := typed (x := x) (by rw [type, Ty.isVoid_of_isPointer pointer])
    exact ⟨by rw [here, pointer], by rw [e, type, here], le⟩
  | @left o x y type known =>
    obtain ⟨e, le⟩ := typed (x := x) (by rw [type, known])
    exact .inl ⟨by rw [e, type, known], le⟩
  | @right o x y type known =>
    obtain ⟨e, le⟩ := typed (x := y) (by rw [type, known])
    exact .inr ⟨by rw [e, type, known], le⟩

theorem Yields.legal (h : Yields f t op) (values : ∀ v, (f.valueType v).Legal)
    (constants : ∀ c, .const c ∈ op.operands → c.type.Legal) : t.Legal := by
  have typed {x : Operand} (mem : x ∈ op.operands) : (f.operandType x).Legal := by
    cases x with
    | value w => exact values w
    | const c => exact constants c mem
  cases h with
  | @load x type =>
    have legal := typed (x := x) (by simp [Op.operands])
    rw [type] at legal
    exact legal.1
  | @gep x y pointer type => exact type ▸ typed (by simp [Op.operands])
  | @left o x y type known => exact type ▸ typed (by simp [Op.operands])
  | @right o x y type known => exact type ▸ typed (by simp [Op.operands])

/-! ## Setting one type -/

theorem valueType_setValueType_of_ne (ne : w ≠ v) : (f.setValueType v t).valueType w = f.valueType w := by
  have : v.index ≠ w.index := fun e => ne (by cases v; cases w; simp_all)
  simp [valueType, valueInfo, setValueType, Array.getElem?_modify, this]

theorem valueType_setValueType_self (lt : v.index < f.values.size) :
    (f.setValueType v t).valueType v = t := by
  simp [valueType, valueInfo, setValueType, lt, Array.getElem_modify]

/-! ## What the third pass comes to -/

/-- What is known while types are inferred, starting from `f₀` with the untyped values `all`: those of
`todo` are still untyped, the types of the others follow from types. -/
structure Settled (d : ValueId → Option Op) (f₀ : Function) (all : List ValueId) (f : Function)
    (rank : ValueId → Nat) (n : Nat) (todo : List ValueId) : Prop where
  nodup : todo.Nodup
  subset : todo ⊆ all
  void : ∀ v ∈ todo, (f.valueType v).isVoid = true
  range : ∀ v ∈ todo, v.index < f.values.size
  bound : ∀ w, rank w < n
  settled : ∀ v ∈ all, v ∈ todo ∨ ∃ op, d v = some op ∧ op.isInferred = true ∧
    op.Follows f.valueType rank v
  kept : ∀ w, w ∉ all → f.valueType w = f₀.valueType w
  legal : (∀ v, (f₀.valueType v).Legal) →
    (∀ v op, d v = some op → ∀ c, .const c ∈ op.operands → c.type.Legal) → ∀ v, (f.valueType v).Legal

namespace Settled

variable {f₀ : Function} {all before rest todo : List ValueId}

theorem set (h : Settled d f₀ all f rank n (before ++ v :: rest)) (defined : d v = some op)
    (yields : Yields f t op) :
    Settled d f₀ all (f.setValueType v t) (Function.update rank v n) (n + 1) (before ++ rest) := by
  have mem : v ∈ before ++ v :: rest := by simp
  obtain ⟨fresh, nodup⟩ : v ∉ before ++ rest ∧ (before ++ rest).Nodup := by
    have := (List.nodup_middle.mp h.nodup)
    exact List.nodup_cons.mp this
  have sub : before ++ rest ⊆ before ++ v :: rest := by
    intro w hw
    simp only [List.mem_append, List.mem_cons] at hw ⊢
    tauto
  have void := h.void v mem
  have other {w : ValueId} (ne : w ≠ v) : (f.setValueType v t).valueType w = f.valueType w :=
    valueType_setValueType_of_ne ne
  have self : (f.setValueType v t).valueType v = t := valueType_setValueType_self (h.range v mem)
  have known {w : ValueId} (typed : (f.valueType w).isVoid = false) : w ≠ v := by
    rintro rfl
    rw [void] at typed
    cases typed
  refine ⟨nodup, List.Subset.trans sub h.subset, fun w hw => ?_, fun w hw => ?_, fun w => ?_, fun w hw => ?_,
    fun w hw => ?_, fun values constants w => ?_⟩
  · have ne : w ≠ v := fun e => fresh (e ▸ hw)
    rw [other ne]
    exact h.void w (sub hw)
  · have size : (f.setValueType v t).values.size = f.values.size := by simp [setValueType]
    rw [size]
    exact h.range w (sub hw)
  · by_cases e : w = v
    · rw [e, Function.update_self]
      exact Nat.lt_succ_self n
    · rw [Function.update_of_ne e]
      exact (h.bound w).trans (Nat.lt_succ_self n)
  · by_cases e : w = v
    · subst e
      refine .inr ⟨op, defined, yields.isInferred, yields.follows self (fun u hu => other (known hu)) ?_⟩
      intro u hu
      rw [Function.update_self, Function.update_of_ne (known hu)]
      exact h.bound u
    · rcases h.settled w hw with hw | ⟨op', defined', inferred, follows⟩
      · refine .inl ?_
        simp only [List.mem_append, List.mem_cons] at hw ⊢
        tauto
      · refine .inr ⟨op', defined', inferred, follows.mono (other e) (fun u hu => other (known hu)) ?_⟩
        intro u hu lt
        rwa [Function.update_of_ne (known hu), Function.update_of_ne e]
  · have ne : w ≠ v := by
      rintro rfl
      exact hw (h.subset mem)
    rw [other ne, h.kept w hw]
  · by_cases e : w = v
    · rw [e, self]
      exact yields.legal (h.legal values constants) (constants v op defined)
    · rw [other e]
      exact h.legal values constants w

theorem inferPass {untyped still : List (Nat × ValueId)}
    (h : Settled d f₀ all f rank n (before ++ untyped.map (·.2)))
    (run : inferPass d f untyped = .ok (f', still)) :
    ∃ rank' n', Settled d f₀ all f' rank' n' (before ++ still.map (·.2)) := by
  induction untyped generalizing f f' rank n before still with
  | nil =>
    cases run
    exact ⟨rank, n, h⟩
  | cons p untyped ih =>
    obtain ⟨line, v⟩ := p
    rw [List.map_cons] at h
    rw [Reader.inferPass, bind_eq_ok_iff] at run
    obtain ⟨t?, found, run⟩ := run
    cases t? with
    | some t =>
      cases defined : d v with
      | none =>
        rw [defined] at found
        cases found
      | some op =>
        rw [defined] at found
        exact ih (h.set defined (yields_of_inferOp found)) run
    | none =>
      obtain ⟨⟨g, more⟩, pass, run⟩ := bind_eq_ok_iff.1 run
      cases run
      have h' : Settled d f₀ all f rank n ((before ++ [v]) ++ untyped.map (·.2)) := by
        rwa [List.append_assoc, List.singleton_append]
      obtain ⟨rank', n', h''⟩ := ih h' pass
      exact ⟨rank', n', by rwa [List.append_assoc, List.singleton_append] at h''⟩

theorem inferTypes {fuel : Nat} {untyped : List (Nat × ValueId)}
    (h : Settled d f₀ all f rank n (untyped.map (·.2)))
    (run : inferTypes d fuel f untyped = .ok f') : ∃ rank' n', Settled d f₀ all f' rank' n' [] := by
  induction fuel generalizing f rank n untyped with
  | zero =>
    cases untyped with
    | nil =>
      cases run
      exact ⟨rank, n, h⟩
    | cons p untyped => cases run
  | succ fuel ih =>
    cases untyped with
    | nil =>
      cases run
      exact ⟨rank, n, h⟩
    | cons p untyped =>
      rw [Reader.inferTypes, bind_eq_ok_iff] at run
      · obtain ⟨⟨g, still⟩, pass, run⟩ := run
        have pass' : ∃ rank' n', Settled d f₀ all g rank' n' ([] ++ still.map (·.2)) := h.inferPass pass
        obtain ⟨rank', n', h'⟩ := pass'
        dsimp only at run
        split at run
        · cases run
          exact ⟨rank', n', h'⟩
        · split at run
          · cases run
          · exact ih h' run
      · exact fun e => by cases e

end Settled

/-- What the third pass comes to: all values are typed, and each of the types follows. -/
structure Inferred (d : ValueId → Option Op) (f : Function) (all : List ValueId) (f' : Function)
    (rank : ValueId → Nat) : Prop where
  follows : ∀ v ∈ all, ∃ op, d v = some op ∧ op.isInferred = true ∧ op.Follows f'.valueType rank v
  kept : ∀ w, w ∉ all → f'.valueType w = f.valueType w
  legal : (∀ v, (f.valueType v).Legal) →
    (∀ v op, d v = some op → ∀ c, .const c ∈ op.operands → c.type.Legal) → ∀ v, (f'.valueType v).Legal

theorem inferred_of_inferTypes {fuel : Nat} {untyped : List (Nat × ValueId)}
    (nodup : (untyped.map (·.2)).Nodup) (void : ∀ v ∈ untyped.map (·.2), (f.valueType v).isVoid = true)
    (range : ∀ v ∈ untyped.map (·.2), v.index < f.values.size)
    (run : inferTypes d fuel f untyped = .ok f') :
    ∃ rank n, Inferred d f (untyped.map (·.2)) f' rank ∧ ∀ w, rank w < n := by
  have start : Settled d f (untyped.map (·.2)) f (fun _ => 0) 1 (untyped.map (·.2)) :=
    ⟨nodup, List.Subset.refl _, void, range, fun _ => Nat.zero_lt_one, fun v hv => .inl hv, fun _ _ => rfl,
      fun values _ => values⟩
  obtain ⟨rank, n, h⟩ := start.inferTypes run
  exact ⟨rank, n, ⟨fun v hv => (h.settled v hv).resolve_left (List.not_mem_nil), h.kept, h.legal⟩, h.bound⟩

/-! ## Success -/

/-- The value is the result of a binary operation. -/
def IsBinary (d : ValueId → Option Op) (v : ValueId) : Prop :=
  ∃ o x y, d v = some (.binary o x y)

/-- The value has the type that it should have, or a type at all if it is the result of a binary
operation. -/
def Suited (d : ValueId → Option Op) (τ : ValueId → Ty) (f : Function) (v : ValueId) : Prop :=
  f.valueType v = τ v ∨ (IsBinary d v ∧ (f.valueType v).isVoid = false)

/-- What the third pass needs in order to type the values of `todo`. -/
structure Inferable (d : ValueId → Option Op) (τ : ValueId → Ty) (rank : ValueId → Nat) (f : Function)
    (todo : List ValueId) : Prop where
  nodup : todo.Nodup
  void : ∀ v ∈ todo, (f.valueType v).isVoid = true
  range : ∀ v ∈ todo, v.index < f.values.size
  follows : ∀ v ∈ todo, ∃ op, d v = some op ∧ op.isInferred = true ∧ op.Follows τ rank v
  scalar : ∀ v, IsBinary d v → (τ v).isPointer = false
  suited : ∀ v, v ∉ todo → Suited d τ f v

namespace Inferable

variable {before rest todo : List ValueId}

theorem operandType (h : Inferable d τ rank f todo) (pointer : (x.typeIn τ).isPointer = true)
    (known : ∀ w, x = .value w → w ∉ todo) : f.operandType x = x.typeIn τ := by
  cases x with
  | const c => rfl
  | value w =>
    rcases h.suited w (known w rfl) with same | ⟨binary, -⟩
    · exact same
    · rw [Operand.typeIn, h.scalar w binary] at pointer
      cases pointer

theorem isVoid_operandType (h : Inferable d τ rank f todo) (typed : (x.typeIn τ).isVoid = false)
    (known : ∀ w, x = .value w → w ∉ todo) : (f.operandType x).isVoid = false := by
  cases x with
  | const c => exact typed
  | value w =>
    rcases h.suited w (known w rfl) with same | ⟨-, typed⟩
    · exact (congrArg Ty.isVoid same).trans typed
    · exact typed

theorem inferOp (h : Inferable d τ rank f todo) (line : Nat) (defined : d v = some op)
    (inferred : op.isInferred = true) (follows : op.Follows τ rank v) :
    ∃ t?, inferOp f line op = .ok t? ∧
      (∀ t, t? = some t → t = τ v ∨ (IsBinary d v ∧ t.isVoid = false)) ∧
      ((∀ w ∈ todo, rank v ≤ rank w) → t? ≠ none) := by
  have open_or_known (x : Operand) : (∃ w ∈ todo, x = .value w) ∨ ∀ w, x = .value w → w ∉ todo := by
    cases x with
    | const c => exact .inr fun w e => by cases e
    | value w =>
      by_cases mem : w ∈ todo
      · exact .inl ⟨w, mem, rfl⟩
      · refine .inr ?_
        rintro _ ⟨⟩
        exact mem
  have least (x : Operand) (le : x.Precedes rank v) (first : ∀ w ∈ todo, rank v ≤ rank w) :
      ∀ w, x = .value w → w ∉ todo := fun w e mem =>
    absurd (le w e) (Nat.not_lt.mpr (first w mem))
  cases op with
  | load x =>
    obtain ⟨type, le⟩ := follows
    rcases open_or_known x with ⟨w, mem, rfl⟩ | known
    · have void : knownType? f (.value w) = none := knownType?_of_void (h.void w mem)
      exact ⟨none, by simp only [Reader.inferOp, void], fun t e => (by cases e),
        fun first => absurd mem (least _ le first w rfl)⟩
    · have here := h.operandType (by rw [type]; rfl) known
      have found : knownType? f x = some (.ptr (τ v)) :=
        knownType?_eq_some_iff.2 ⟨here.trans type, rfl⟩
      refine ⟨some (τ v), by simp only [Reader.inferOp, found], fun t e => .inl ?_, fun _ e => by cases e⟩
      cases e
      rfl
  | gep x y =>
    obtain ⟨pointer, type, le⟩ := follows
    rcases open_or_known x with ⟨w, mem, rfl⟩ | known
    · have void : knownType? f (.value w) = none := knownType?_of_void (h.void w mem)
      exact ⟨none, by simp only [Reader.inferOp, void], fun t e => (by cases e),
        fun first => absurd mem (least _ le first w rfl)⟩
    · have here := h.operandType (by rw [type, pointer]) known
      have found : knownType? f x = some (τ v) :=
        knownType?_eq_some_iff.2 ⟨here.trans type, Ty.isVoid_of_isPointer pointer⟩
      refine ⟨some (τ v), by simp only [Reader.inferOp, found, pointer, if_true], fun t e => .inl ?_,
        fun _ e => by cases e⟩
      cases e
      rfl
  | binary o x y =>
    refine ⟨_, rfl, fun t e => .inr ⟨⟨o, x, y, defined⟩, ?_⟩, fun first e => ?_⟩
    · rcases Option.or_eq_some_iff.mp e with found | ⟨-, found⟩
      · exact (knownType?_eq_some_iff.1 found).2
      · exact (knownType?_eq_some_iff.1 found).2
    · obtain ⟨left, right⟩ := Option.or_eq_none_iff.mp e
      have typed {z : Operand} (hz : (z.typeIn τ).isVoid = false ∧ z.Precedes rank v) :
          knownType? f z ≠ none := by
        have := h.isVoid_operandType hz.1 (least z hz.2 first)
        rw [knownType?_eq_some_iff.2 ⟨rfl, this⟩]
        exact fun e => by cases e
      rcases follows with hx | hy
      · exact typed hx left
      · exact typed hy right
  | _ => cases inferred

theorem set (h : Inferable d τ rank f (before ++ v :: rest))
    (type : t = τ v ∨ (IsBinary d v ∧ t.isVoid = false)) :
    Inferable d τ rank (f.setValueType v t) (before ++ rest) := by
  have mem : v ∈ before ++ v :: rest := by simp
  obtain ⟨fresh, nodup⟩ : v ∉ before ++ rest ∧ (before ++ rest).Nodup :=
    List.nodup_cons.mp (List.nodup_middle.mp h.nodup)
  have sub : before ++ rest ⊆ before ++ v :: rest := by
    intro w hw
    simp only [List.mem_append, List.mem_cons] at hw ⊢
    tauto
  have size : (f.setValueType v t).values.size = f.values.size := by simp [setValueType]
  refine ⟨nodup, fun w hw => ?_, fun w hw => size ▸ h.range w (sub hw), fun w hw => h.follows w (sub hw),
    h.scalar, fun w hw => ?_⟩
  · have ne : w ≠ v := fun e => fresh (e ▸ hw)
    rw [valueType_setValueType_of_ne ne]
    exact h.void w (sub hw)
  · unfold Suited
    by_cases e : w = v
    · subst e
      rwa [valueType_setValueType_self (h.range w mem)]
    · rw [valueType_setValueType_of_ne e]
      refine h.suited w fun hw' => hw ?_
      simp only [List.mem_append, List.mem_cons] at hw' ⊢
      tauto

/-- One pass types every value that nothing untyped comes before. -/
theorem inferPass {untyped : List (Nat × ValueId)}
    (h : Inferable d τ rank f (before ++ untyped.map (·.2))) :
    ∃ f' still, inferPass d f untyped = .ok (f', still) ∧
      Inferable d τ rank f' (before ++ still.map (·.2)) ∧ still.Sublist untyped ∧
      ∀ p ∈ untyped, (∀ w ∈ before ++ untyped.map (·.2), rank p.2 ≤ rank w) → p.2 ∉ still.map (·.2) := by
  induction untyped generalizing f before with
  | nil => exact ⟨f, [], rfl, h, .slnil, fun p hp => by cases hp⟩
  | cons p untyped ih =>
    obtain ⟨line, v⟩ := p
    rw [List.map_cons] at h
    have mem : v ∈ before ++ v :: untyped.map (·.2) := by simp
    obtain ⟨op, defined, inferred, follows⟩ := h.follows v mem
    obtain ⟨t?, found, type, first⟩ := h.inferOp line defined inferred follows
    have nodup : v ∉ untyped.map (·.2) :=
      (List.nodup_cons.mp (List.nodup_append.mp h.nodup).2.1).1
    cases t? with
    | some t =>
      obtain ⟨f', still, run, next, sub, typed⟩ := ih (h.set (type t rfl))
      refine ⟨f', still, ?_, next, sub.cons _, fun p hp least => ?_⟩
      · rw [Reader.inferPass, defined]
        simpa only [Option.map_some, Option.getD_some, found, ok_bind] using run
      · rcases List.mem_cons.mp hp with rfl | hp
        · exact fun mem => nodup ((sub.map _).subset mem)
        · refine typed p hp fun w hw => least w ?_
          simp only [List.map_cons, List.mem_append, List.mem_cons] at hw ⊢
          tauto
    | none =>
      have h' : Inferable d τ rank f ((before ++ [v]) ++ untyped.map (·.2)) := by
        rwa [List.append_assoc, List.singleton_append]
      obtain ⟨f', still, run, next, sub, typed⟩ := ih h'
      refine ⟨f', (line, v) :: still, ?_, ?_, sub.cons_cons _, fun p hp least => ?_⟩
      · rw [Reader.inferPass, defined]
        simp only [Option.map_some, Option.getD_some, found, ok_bind, run]
        rfl
      · rwa [List.append_assoc, List.singleton_append] at next
      · rcases List.mem_cons.mp hp with rfl | hp
        · exact absurd rfl (first least)
        · have ne : p.2 ≠ v := fun e => nodup (e ▸ List.mem_map_of_mem hp)
          rw [List.map_cons, List.mem_cons, not_or]
          refine ⟨ne, typed p hp fun w hw => least w ?_⟩
          simpa using hw

/-- The third pass types everything, whatever the order. -/
theorem inferTypes {fuel : Nat} {untyped : List (Nat × ValueId)}
    (h : Inferable d τ rank f (untyped.map (·.2))) (enough : untyped.length ≤ fuel) :
    ∃ f', inferTypes d fuel f untyped = .ok f' ∧ ∀ v, Suited d τ f' v := by
  induction fuel generalizing f untyped with
  | zero =>
    cases untyped with
    | nil => exact ⟨f, rfl, fun v => h.suited v List.not_mem_nil⟩
    | cons p untyped => cases enough
  | succ fuel ih =>
    cases untyped with
    | nil => exact ⟨f, rfl, fun v => h.suited v List.not_mem_nil⟩
    | cons p untyped =>
      have pass : ∃ f' still, Reader.inferPass d f (p :: untyped) = .ok (f', still) ∧
          Inferable d τ rank f' ([] ++ still.map (·.2)) ∧ still.Sublist (p :: untyped) ∧
          ∀ q ∈ p :: untyped, (∀ w ∈ [] ++ (p :: untyped).map (·.2), rank q.2 ≤ rank w) →
            q.2 ∉ still.map (·.2) := inferPass h
      obtain ⟨f', still, run, next, sub, typed⟩ := pass
      -- a value of least rank is typed, so fewer are left
      obtain ⟨q, minimal⟩ := Option.ne_none_iff_exists'.mp
        (mt (List.argmin_eq_none (f := fun q : Nat × ValueId => rank q.2)).mp (List.cons_ne_nil p untyped))
      have hq := List.argmin_mem minimal
      have least : ∀ r ∈ p :: untyped, rank q.2 ≤ rank r.2 := fun r hr =>
        List.le_of_mem_argmin (f := fun q : Nat × ValueId => rank q.2) hr minimal
      have fewer : still.length < (p :: untyped).length := by
        refine Nat.lt_of_le_of_ne sub.length_le fun same => ?_
        refine typed q hq (fun w hw => ?_) (List.mem_map_of_mem (sub.eq_of_length same ▸ hq))
        obtain ⟨r, hr, rfl⟩ := List.mem_map.mp hw
        exact least r hr
      cases still with
      | nil =>
        refine ⟨f', ?_, fun v => next.suited v List.not_mem_nil⟩
        rw [Reader.inferTypes, run]
        · rfl
        · exact fun e => by cases e
      | cons r still =>
        obtain ⟨f'', rest, suited⟩ := ih next (by omega)
        refine ⟨f'', ?_, suited⟩
        rw [Reader.inferTypes, run, ok_bind]
        · simpa only [Nat.ne_of_lt fewer, if_false] using rest
        · exact fun e => by cases e

end Inferable

/-! ## Other constants of the same types -/

theorem inferOp_canonical {f₁ : Function} {t? : Option Ty} (line₁ : Nat) (values : f₁.values = f.values)
    (run : inferOp f line op = .ok t?) : inferOp f₁ line₁ op.canonical = .ok t? := by
  have known (x : Operand) : knownType? f₁ x.canonical = knownType? f x := by
    have type : f₁.operandType x.canonical = f.operandType x := by
      cases x with
      | value v => simp only [Operand.canonical, Operand.reread, id, Function.operandType, valueType, valueInfo, values]
      | const c => exact Constant.type_canonical c
    rw [knownType?, type, knownType?]
  cases op with
  | load x =>
    change inferOp f₁ line₁ (.load x.canonical) = _
    simp only [inferOp, known] at run ⊢
    split at run
    · next found => simpa only [found] using run
    · cases run
    · next found => simpa only [found] using run
  | gep x y =>
    change inferOp f₁ line₁ (.gep x.canonical y.canonical) = _
    simp only [inferOp, known] at run ⊢
    split at run
    · next found =>
      split at run
      · next pointer => simpa only [found, pointer, if_true] using run
      · cases run
    · next found => simpa only [found] using run
  | binary o x y =>
    rw [inferOp] at run
    rw [← run]
    exact congrArg Except.ok (by rw [known, known])
  | _ =>
    cases run
    rfl

theorem inferPass_canonical {d₁ : ValueId → Option Op} {f₁ : Function}
    {untyped untyped₁ still : List (Nat × ValueId)} (values : f₁.values = f.values)
    (same : untyped₁.map (·.2) = untyped.map (·.2))
    (defined : ∀ v, d₁ v = (d v).map Op.canonical)
    (run : inferPass d f untyped = .ok (f', still)) :
    ∃ still₁, inferPass d₁ f₁ untyped₁ = .ok ({ f₁ with values := f'.values }, still₁) ∧
      still₁.map (·.2) = still.map (·.2) := by
  induction untyped generalizing f f₁ f' untyped₁ still with
  | nil =>
    cases run
    cases List.map_eq_nil_iff.mp same
    exact ⟨[], by rw [← values]; rfl, rfl⟩
  | cons p untyped ih =>
    obtain ⟨line, v⟩ := p
    cases untyped₁ with
    | nil => cases same
    | cons p₁ untyped₁ =>
      obtain ⟨line₁, v₁⟩ := p₁
      rw [List.map_cons, List.map_cons, List.cons.injEq] at same
      obtain ⟨rfl, same⟩ := same
      rw [inferPass, bind_eq_ok_iff] at run
      obtain ⟨t?, found, run⟩ := run
      have found₁ : ((d₁ v₁).map (inferOp f₁ line₁)).getD (.ok none) = .ok t? := by
        rw [defined v₁]
        cases defined : d v₁ with
        | none =>
          rw [defined] at found
          exact found
        | some op =>
          rw [defined] at found
          exact inferOp_canonical line₁ values found
      rw [inferPass, found₁, ok_bind]
      cases t? with
      | some t =>
        have values' : (f₁.setValueType v₁ t).values = (f.setValueType v₁ t).values := by
          rw [setValueType, setValueType, values]
        exact ih values' same run
      | none =>
        obtain ⟨⟨g, more⟩, pass, run⟩ := bind_eq_ok_iff.1 run
        cases run
        obtain ⟨more₁, pass₁, same'⟩ := ih values same pass
        exact ⟨(line₁, v₁) :: more₁, by rw [pass₁]; rfl, by rw [List.map_cons, same', List.map_cons]⟩

theorem inferTypes_canonical {d₁ : ValueId → Option Op} {f₁ : Function} {fuel : Nat}
    {untyped untyped₁ : List (Nat × ValueId)} (values : f₁.values = f.values)
    (same : untyped₁.map (·.2) = untyped.map (·.2))
    (defined : ∀ v, d₁ v = (d v).map Op.canonical)
    (run : inferTypes d fuel f untyped = .ok f') :
    inferTypes d₁ fuel f₁ untyped₁ = .ok { f₁ with values := f'.values } := by
  induction fuel generalizing f f₁ f' untyped untyped₁ with
  | zero =>
    cases untyped with
    | nil =>
      cases run
      cases List.map_eq_nil_iff.mp same
      rw [← values]
      rfl
    | cons p untyped => cases run
  | succ fuel ih =>
    cases untyped with
    | nil =>
      cases run
      cases List.map_eq_nil_iff.mp same
      rw [← values]
      rfl
    | cons p untyped =>
      cases untyped₁ with
      | nil => cases same
      | cons p₁ untyped₁ =>
        have length : (p₁ :: untyped₁).length = (p :: untyped).length := by
          simpa using congrArg List.length same
        rw [inferTypes, bind_eq_ok_iff] at run
        · obtain ⟨⟨g, still⟩, pass, run⟩ := run
          obtain ⟨still₁, pass₁, same₁⟩ := inferPass_canonical values same defined pass
          rw [inferTypes, pass₁, ok_bind]
          · dsimp only at run ⊢
            cases still with
            | nil =>
              cases run
              cases List.map_eq_nil_iff.mp same₁
              rfl
            | cons q still =>
              cases still₁ with
              | nil => cases same₁
              | cons q₁ still₁ =>
                have left : (q₁ :: still₁).length = (q :: still).length := by
                  simpa using congrArg List.length same₁
                dsimp only at run ⊢
                rw [left, length]
                split at run
                · cases run
                · next fewer =>
                  rw [if_neg fewer]
                  have values' : ({ f₁ with values := g.values } : Function).values = g.values := rfl
                  exact ih values' same₁ run
          · exact fun e => by cases e
        · exact fun e => by cases e

end Reader

end CheckpointRestart
