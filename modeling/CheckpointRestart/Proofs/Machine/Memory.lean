import CheckpointRestart.Proofs.Machine.Agreement
import CheckpointRestart.Proofs.Machine.Provenance
import CheckpointRestart.Proofs.Number.Word

/-! # What is stored is loaded again

A value of any type comes back from memory as it was stored, and nothing but its own bytes changes.
The one exception are pointers: of an offset only the low 32 bits are kept, so that an offset
outside the range of 32 bits comes back as another one.
-/

namespace CheckpointRestart

open Word

/-! ## Words and their bytes -/

namespace Value

theorem length_bytesOf (size : Nat) (bits : UInt64) : (bytesOf size bits).length = size := by
  induction size generalizing bits with
  | zero => rfl
  | succ size ih => rw [bytesOf, List.length_cons, ih]

theorem toNat_wordOf_bytesOf {size : Nat} (le : size ≤ 8) (bits : UInt64) :
    (wordOf (bytesOf size bits)).toNat = bits.toNat % 2 ^ (8 * size) := by
  induction size generalizing bits with
  | zero => simp [bytesOf, wordOf, Nat.mod_one]
  | succ size ih =>
    have rest := ih (Nat.le_of_succ_le le) (bits >>> 8)
    have shifted : (bits >>> 8).toNat = bits.toNat / 2 ^ 8 := by
      rw [UInt64.toNat_shiftRight, Nat.shiftRight_eq_div_pow]
      rfl
    rw [shifted] at rest
    have low : bits.toUInt8.toUInt64.toNat = bits.toNat % 2 ^ 8 := by
      rw [UInt8.toNat_toUInt64, UInt64.toNat_toUInt8]
    -- the bytes above the lowest one do not leave the word
    have room : bits.toNat / 2 ^ 8 % 2 ^ (8 * size) * 2 ^ 8 < 2 ^ 64 := by
      have lt := Nat.mod_lt (bits.toNat / 2 ^ 8) (Nat.two_pow_pos (8 * size))
      calc bits.toNat / 2 ^ 8 % 2 ^ (8 * size) * 2 ^ 8
        _ < 2 ^ (8 * size) * 2 ^ 8 := Nat.mul_lt_mul_of_pos_right lt (by decide)
        _ = 2 ^ (8 * size + 8) := (Nat.pow_add _ _ _).symm
        _ ≤ 2 ^ 64 := Nat.pow_le_pow_right (by decide) (by omega)
    have high : (wordOf (bytesOf size (bits >>> 8)) <<< 8).toNat =
        (bits.toNat / 2 ^ 8 % 2 ^ (8 * size)) <<< 8 := by
      rw [UInt64.toNat_shiftLeft, rest]
      change (_ <<< 8) % 2 ^ 64 = _
      rw [Nat.shiftLeft_eq, Nat.mod_eq_of_lt room]
    rw [bytesOf, wordOf, UInt64.toNat_or, low, high, Nat.lor_comm,
      ← Nat.shiftLeft_add_eq_or_of_lt (Nat.mod_lt _ (by decide)), Nat.shiftLeft_eq,
      show 8 * (size + 1) = 8 + 8 * size by omega, Nat.pow_add, Nat.mod_mul, Nat.mul_comm, Nat.add_comm]

/-! ## Values of a type -/

/-- The values of a type. Integers are extended from their width. -/
def HasType : Value → Ty → Prop
  | int bits x, .int width => bits = width ∧ signExtend x bits = x
  | f32 _, .f32 | f64 _, .f64 | ptr _, .ptr _ => True
  | _, _ => False

/-- A value as memory holds it: of the offset of a pointer, the low 32 bits with their sign. -/
def inMemory : Value → Value
  | ptr p => ptr ⟨p.allocation, .ofInt (p.offset.toInt.bmod (2 ^ 32))⟩
  | v => v

theorem inMemory_eq_iff {v : Value} :
    v.inMemory = v ↔ ∀ p, v = ptr p → InRange 32 p.offset.toInt := by
  cases v with
  | int | f32 | f64 => simp [inMemory]
  | ptr p =>
    have kept := (inRange_bmod (show 0 < 32 by decide) p.offset.toInt).toInt_ofInt (by decide)
    constructor
    · intro same q eq
      cases eq
      have offset : Int64.ofInt (p.offset.toInt.bmod (2 ^ 32)) = p.offset :=
        congrArg Pointer.offset (Value.ptr.inj same)
      rw [offset] at kept
      rw [kept]
      exact inRange_bmod (by decide) _
    · intro fits
      change Value.ptr ⟨p.allocation, Int64.ofInt (p.offset.toInt.bmod (2 ^ 32))⟩ = _
      rw [(fits p rfl).bmod_eq (by decide), Int64.ofInt_toInt]

theorem storeSize_le {t : Ty} (widths : ∀ bits, t = .int bits → 1 ≤ bits ∧ bits ≤ 64) :
    t.storeSize ≤ 8 := by
  cases t with
  | int bits =>
    have := (widths bits rfl).2
    simp only [Ty.storeSize, Ty.bitWidth]
    omega
  | void | f32 | f64 | ptr => simp [Ty.storeSize, Ty.bitWidth]

theorem length_encode {t : Ty} (widths : ∀ bits, t = .int bits → 1 ≤ bits ∧ bits ≤ 64) (v : Value) :
    (v.encode t.storeSize).length = t.storeSize := by
  rw [encode, length_bytesOf, Nat.min_eq_left (storeSize_le widths)]

end Value

/-- Memory keeps the low half of an offset. -/
theorem Pointer.ofBits_toBits (p : Pointer) :
    Pointer.ofBits p.toBits = ⟨p.allocation, .ofInt (p.offset.toInt.bmod (2 ^ 32))⟩ := by
  let low := p.offset.toInt32.toUInt32
  have bits : p.toBits.toNat = p.allocation.toNat * 2 ^ 32 + low.toNat := by
    have room : p.allocation.toNat * 2 ^ 32 < 2 ^ 64 := by
      have := p.allocation.toNat_lt
      omega
    rw [toBits, UInt64.toNat_or, UInt64.toNat_shiftLeft, UInt32.toNat_toUInt64, UInt32.toNat_toUInt64]
    change (p.allocation.toNat <<< 32 % 2 ^ 64) ||| low.toNat = _
    rw [Nat.shiftLeft_eq, Nat.mod_eq_of_lt room, ← Nat.shiftLeft_eq,
      ← Nat.shiftLeft_add_eq_or_of_lt low.toNat_lt]
  have below := low.toNat_lt
  have allocation : (p.toBits >>> 32).toUInt32 = p.allocation := by
    rw [← UInt32.toNat_inj, UInt64.toNat_toUInt32, UInt64.toNat_shiftRight, bits,
      Nat.shiftRight_eq_div_pow]
    change (p.allocation.toNat * 2 ^ 32 + low.toNat) / 2 ^ 32 % 2 ^ 32 = _
    have := p.allocation.toNat_lt
    omega
  have offset : p.toBits.toUInt32 = low := by
    rw [← UInt32.toNat_inj, UInt64.toNat_toUInt32, bits]
    omega
  rw [ofBits, allocation, offset]
  congr 1
  rw [← Int64.toInt_inj, Int32.toInt_toInt64,
    (inRange_bmod (show 0 < 32 by decide) p.offset.toInt).toInt_ofInt (by decide)]
  exact Int64.toInt_toInt32 _

namespace Value

theorem toInt_toInt64_bmod {bits : Nat} (le : bits ≤ 64) (w : UInt64) :
    w.toInt64.toInt.bmod (2 ^ bits) = (w.toNat : Int).bmod (2 ^ bits) := by
  have value : w.toInt64.toInt = (w.toNat : Int).bmod (2 ^ 64) := by
    rw [← Int64.toInt_toBitVec, BitVec.toInt_eq_toNat_bmod]
    rfl
  rw [value, Int.bmod_bmod_of_dvd (Nat.pow_dvd_pow 2 le)]

theorem signExtend_low {bits size : Nat} (pos : 1 ≤ bits) (le : bits ≤ 64) (covers : bits ≤ 8 * size)
    {x : Int64} {w : UInt64} (low : w.toNat = x.toUInt64.toNat % 2 ^ (8 * size)) :
    signExtend w.toInt64 bits = signExtend x bits := by
  refine signExtend_congr pos le ?_
  have whole : x.toInt.bmod (2 ^ bits) = (x.toUInt64.toNat : Int).bmod (2 ^ bits) :=
    toInt_toInt64_bmod le x.toUInt64
  rw [toInt_toInt64_bmod le, whole, low, Int.natCast_emod, ← Int.emod_bmod,
    Int.emod_emod_of_dvd _ (by exact_mod_cast Nat.pow_dvd_pow 2 covers), Int.emod_bmod]

/-- The bytes of a value are those of the value that memory holds. -/
theorem decode?_encode {t : Ty} {v : Value} (widths : ∀ bits, t = .int bits → 1 ≤ bits ∧ bits ≤ 64)
    (typed : v.HasType t) :
    decode? (v.encode t.storeSize) t = some v.inMemory := by
  have small := storeSize_le widths
  have word := toNat_wordOf_bytesOf small v.toBits
  rw [decode?, List.take_of_length_le (by rw [length_encode widths]; exact small), encode,
    Nat.min_eq_left small]
  generalize wordOf (bytesOf t.storeSize v.toBits) = w at word
  have whole (eight : t.storeSize = 8) : w = v.toBits := by
    rw [← UInt64.toNat_inj, word, eight]
    exact Nat.mod_eq_of_lt v.toBits.toNat_lt
  cases v with
  | int bits x =>
    cases t with
    | int width =>
      obtain ⟨rfl, extended⟩ := typed
      have covers : bits ≤ 8 * (Ty.int bits).storeSize := by
        simp only [Ty.storeSize, Ty.bitWidth]
        omega
      have same := signExtend_low (widths bits rfl).1 (widths bits rfl).2 covers (x := x) word
      rw [extended] at same
      exact congrArg (fun y => some (Value.int bits y)) same
    | void | f32 | f64 | ptr => exact typed.elim
  | f32 pattern =>
    cases t with
    | f32 =>
      have same : w.toUInt32 = pattern := by
        rw [← UInt32.toNat_inj, UInt64.toNat_toUInt32, word]
        change pattern.toUInt64.toNat % 2 ^ (8 * 4) % 2 ^ 32 = _
        rw [Nat.mod_mod, UInt32.toNat_toUInt64, Nat.mod_eq_of_lt pattern.toNat_lt]
      exact congrArg (fun y => some (Value.f32 y)) same
    | void | int | f64 | ptr => exact typed.elim
  | f64 pattern =>
    cases t with
    | f64 => exact congrArg (fun y => some (Value.f64 y)) (whole rfl)
    | void | int | f32 | ptr => exact typed.elim
  | ptr p =>
    cases t with
    | ptr pointee =>
      rw [whole (by simp [Ty.storeSize, Ty.bitWidth])]
      exact congrArg (fun q => some (Value.ptr q)) p.ofBits_toBits
    | void | int | f32 | f64 => exact typed.elim

end Value

/-! ## Memory after a write -/

namespace Memory

variable {m m' : Memory} {p : Pointer} {bytes : Bytes}

/-- The memories are equal but for the `length` bytes at `p`. -/
structure DiffersOnlyAt (m m' : Memory) (p : Pointer) (length : Nat) : Prop where
  count : m'.allocations.size = m.allocations.size
  allocation : ∀ k (x x' : Allocation), m.allocations[k]? = some x → m'.allocations[k]? = some x' →
    x'.live = x.live ∧ x'.bytes.size = x.bytes.size ∧ ∀ n : Nat,
      ¬(k = p.allocation.toNat ∧ p.offset.toInt ≤ n ∧ n < p.offset.toInt + length) →
        x'.bytes[n]? = x.bytes[n]?

theorem getElem?_overwrite (old : Array UInt8) (start : Nat) (new : Bytes) (n : Nat)
    (room : start + new.length ≤ old.size) :
    (overwrite old start new)[n]? =
      if start ≤ n ∧ n < start + new.length then new[n - start]? else old[n]? := by
  induction new generalizing old start with
  | nil =>
    rw [overwrite, if_neg]
    simp only [List.length_nil]
    omega
  | cons b new ih =>
    rw [List.length_cons] at room ⊢
    rw [overwrite, ih _ _ (by rw [Array.size_setIfInBounds]; omega), Array.getElem?_setIfInBounds]
    by_cases first : start = n
    · subst first
      rw [if_neg (by omega), if_pos rfl, if_pos (by omega), if_pos (by omega), Nat.sub_self]
      rfl
    · rw [if_neg first]
      by_cases later : start + 1 ≤ n ∧ n < start + 1 + new.length
      · rw [if_pos later, if_pos (by omega), show n - start = n - (start + 1) + 1 by omega,
          List.getElem?_cons_succ]
      · rw [if_neg later, if_neg (by omega)]

theorem live_eq_ok_iff {x : Allocation} : m.live p = .ok x ↔
    p.isNull = false ∧ m.allocations[p.allocation.toNat]? = some x ∧ x.live = true := by
  unfold live
  cases p.isNull with
  | true => simp
  | false =>
    cases m.allocations[p.allocation.toNat]? with
    | none => simp
    | some y =>
      by_cases living : y.live = true
      · simp only [living, if_true, Option.some.injEq]
        grind
      · simp only [living, Option.some.injEq]
        grind

theorem locateRange_eq_ok_iff {length start : Nat} {x : Allocation} :
    m.locateRange p length = .ok (x, start) ↔ m.live p = .ok x ∧ 0 ≤ p.offset ∧
      p.offset.toNatClampNeg = start ∧ start + length ≤ x.bytes.size := by
  unfold locateRange locate
  cases m.live p with
  | error fault => simp [bind, Except.bind]
  | ok y =>
    have sign : ¬p.offset < 0 ↔ 0 ≤ p.offset := Int64.not_lt
    simp only [bind, Except.bind, pure, Except.pure, throw, throwThe, MonadExceptOf.throw]
    by_cases outside : p.offset < 0 ∨ y.bytes.size < p.offset.toNatClampNeg
    · simp only [outside, if_true]
      grind
    · simp only [outside, if_false]
      grind

theorem checkRange_eq_ok_iff {length : Nat} : m.checkRange p length = .ok () ↔
    ∃ x, m.locateRange p length = .ok (x, p.offset.toNatClampNeg) := by
  unfold checkRange
  rw [bind_eq_ok_iff]
  constructor
  · rintro ⟨⟨x, start⟩, found, -⟩
    have here := (locateRange_eq_ok_iff.1 found).2.2.1
    exact ⟨x, here ▸ found⟩
  · rintro ⟨x, found⟩
    exact ⟨_, found, rfl⟩

theorem getElem?_put (k : Nat) : (m.put p bytes).allocations[k]? =
    if p.allocation.toNat = k then
      m.allocations[k]?.map fun x => { x with bytes := overwrite x.bytes p.offset.toNatClampNeg bytes }
    else m.allocations[k]? :=
  Array.getElem?_modify

theorem extract_overwrite (old : Array UInt8) (start : Nat) (new : Bytes)
    (room : start + new.length ≤ old.size) :
    ((overwrite old start new).extract start (start + new.length)).toList = new := by
  refine List.ext_getElem? fun n => ?_
  rw [Array.getElem?_toList, Array.getElem?_extract, size_overwrite, Nat.min_eq_left room,
    Nat.add_sub_cancel_left, getElem?_overwrite _ _ _ _ room]
  split
  · next inside => rw [if_pos (by omega), Nat.add_sub_cancel_left]
  · next outside => exact (List.getElem?_eq_none (by omega)).symm

theorem read_put (room : m.checkRange p bytes.length = .ok ()) :
    (m.put p bytes).read p bytes.length = .ok bytes := by
  obtain ⟨x, found⟩ := checkRange_eq_ok_iff.1 room
  obtain ⟨living, offset, -, inside⟩ := locateRange_eq_ok_iff.1 found
  obtain ⟨nonnull, here, live⟩ := live_eq_ok_iff.1 living
  let filled : Allocation := { x with bytes := overwrite x.bytes p.offset.toNatClampNeg bytes }
  have there : (m.put p bytes).live p = .ok filled := by
    refine live_eq_ok_iff.2 ⟨nonnull, ?_, live⟩
    rw [getElem?_put, if_pos rfl, here]
    rfl
  have located : (m.put p bytes).locateRange p bytes.length = .ok (filled, p.offset.toNatClampNeg) := by
    refine locateRange_eq_ok_iff.2 ⟨there, offset, rfl, ?_⟩
    change _ ≤ (overwrite x.bytes _ bytes).size
    rwa [size_overwrite]
  unfold read
  rw [located]
  exact congrArg Except.ok (extract_overwrite _ _ _ inside)

theorem differsOnlyAt_put (room : m.checkRange p bytes.length = .ok ()) :
    m.DiffersOnlyAt (m.put p bytes) p bytes.length := by
  obtain ⟨y, found⟩ := checkRange_eq_ok_iff.1 room
  obtain ⟨living, offset, -, inside⟩ := locateRange_eq_ok_iff.1 found
  obtain ⟨-, here, -⟩ := live_eq_ok_iff.1 living
  refine ⟨Array.size_modify, fun k x x' before after => ?_⟩
  rw [getElem?_put] at after
  split at after
  · next same =>
    subst same
    obtain rfl : y = x := Option.some.inj (here.symm.trans before)
    rw [before] at after
    obtain rfl := Option.some.inj after
    refine ⟨rfl, size_overwrite _ _ _, fun n apart => ?_⟩
    have start : (p.offset.toNatClampNeg : Int) = p.offset.toInt := by
      have nonneg : 0 ≤ p.offset.toInt := Int64.le_iff_toInt_le.mp offset
      exact Int.toNat_of_nonneg nonneg
    change (overwrite y.bytes _ bytes)[n]? = _
    rw [getElem?_overwrite _ _ _ _ inside, if_neg]
    rintro ⟨lower, upper⟩
    exact apart ⟨rfl, by omega, by omega⟩
  · obtain rfl : x = x' := Option.some.inj (before.symm.trans after)
    exact ⟨rfl, rfl, fun _ _ => rfl⟩

end Memory

/-! ## Stores and loads -/

section Execution

variable {σ : Type} [Storage σ] {f : Function} {haltAfter : Option Nat} {i : Instruction}
  {x y : Operand} {v : Value} {p : Pointer} {s s' : State σ} {flow : Flow}

theorem execOp_store (op : i.op = .store x y) (value : s.env.operand? x = some v)
    (address : s.env.operand? y = some (.ptr p)) (run : execOp f haltAfter i s = .ok flow s') :
    s.memory.checkRange p (v.encode (f.operandType x).storeSize).length = .ok () ∧
      s' = { s with memory := s.memory.put p (v.encode (f.operandType x).storeSize) } := by
  unfold execOp at run
  rw [op] at run
  dsimp only at run
  obtain ⟨w, t, read, run⟩ := run_bind_eq_ok_iff.1 run
  obtain ⟨hw, rfl⟩ := Exec.operand_eq_ok_iff.1 read
  obtain rfl : v = w := Option.some.inj (value.symm.trans hw)
  obtain ⟨q, t, read, run⟩ := run_bind_eq_ok_iff.1 run
  obtain ⟨hq, rfl⟩ := Exec.operandAs_eq_ok_iff.1 read
  rw [address] at hq
  obtain rfl : p = q := Option.some.inj hq
  obtain ⟨_, t, write, run⟩ := run_bind_eq_ok_iff.1 run
  obtain ⟨-, rfl⟩ := run_pure_eq_ok_iff.1 run
  unfold Exec.write at write
  rw [run_get_bind] at write
  obtain ⟨_, u, checked, write⟩ := run_bind_eq_ok_iff.1 write
  obtain ⟨room, rfl⟩ := Exec.liftMemory_eq_ok_iff.1 checked
  exact ⟨room, run_modify_eq_ok_iff.1 write⟩

theorem execOp_load {r : ValueId} {bytes : Bytes} (op : i.op = .load x) (result : i.result = some r)
    (address : s.env.operand? x = some (.ptr p))
    (read : s.memory.read p (f.valueType r).storeSize = .ok bytes)
    (decoded : Value.decode? bytes (f.valueType r) = some v) :
    execOp f haltAfter i s = .ok (.next (some v)) s := by
  unfold execOp
  rw [op]
  dsimp only
  rw [run_bind_eq_ok_iff]
  refine ⟨r, s, Exec.require_eq_ok_iff.2 ⟨result, rfl⟩, ?_⟩
  rw [run_bind_eq_ok_iff]
  refine ⟨p, s, Exec.operandAs_eq_ok_iff.2 ⟨by rw [address]; rfl, rfl⟩, ?_⟩
  rw [run_get_bind, run_bind_eq_ok_iff]
  refine ⟨bytes, s, Exec.liftMemory_eq_ok_iff.2 ⟨read, rfl⟩, ?_⟩
  rw [run_bind_eq_ok_iff]
  exact ⟨v, s, Exec.require_eq_ok_iff.2 ⟨decoded, rfl⟩, rfl⟩

/-- After a store, a load of the same type from the same address gives the value as memory holds
it: the value that was stored, unless that is a pointer whose offset needs more than 32 bits. No
other byte changes, and no allocation changes its length or ends. -/
theorem execOp_load_of_store {j : Instruction} {z : Operand} {r : ValueId} {t : Ty}
    (widths : ∀ bits, t = .int bits → 1 ≤ bits ∧ bits ≤ 64) (typed : v.HasType t)
    (store : i.op = .store x y) (type : f.operandType x = t)
    (value : s.env.operand? x = some v) (address : s.env.operand? y = some (.ptr p))
    (stored : execOp f haltAfter i s = .ok flow s') (load : j.op = .load z) (result : j.result = some r)
    (same : f.valueType r = t) (again : s'.env.operand? z = some (.ptr p)) :
    execOp f haltAfter j s' = .ok (.next (some v.inMemory)) s' ∧
      (v.inMemory = v ↔ ∀ q, v = .ptr q → InRange 32 q.offset.toInt) ∧
      s.memory.DiffersOnlyAt s'.memory p t.storeSize := by
  subst type
  obtain ⟨room, rfl⟩ := execOp_store store value address stored
  have length := Value.length_encode widths v
  refine ⟨execOp_load load result again ?_ (by rw [same]; exact Value.decode?_encode widths typed),
    Value.inMemory_eq_iff, ?_⟩
  · rw [same]
    have read := Memory.read_put room
    rwa [length] at read
  · have differs := Memory.differsOnlyAt_put room
    rwa [length] at differs

end Execution

/-- Keeps a number of 12 bits behind the start of a variable. -/
def keeping : Function where
  name := "keeping"
  params := []
  returns := .int 12
  values := #[⟨"cells", .ptr (.int 12)⟩, ⟨"at", .ptr (.int 12)⟩, ⟨"x", .int 12⟩]
  blocks := #[⟨"entry", [
    .define ⟨0⟩ (.alloca (.int 12) 3),
    .define ⟨1⟩ (.gep (.value ⟨0⟩) (.const (.int 64 1))),
    .effect (.store (.const (.int 12 (-5))) (.value ⟨1⟩)),
    .define ⟨2⟩ (.load (.value ⟨1⟩)),
    .effect (.ret (some (.value ⟨2⟩)))]⟩]
  layout := [⟨0⟩]

theorem execOp_load_of_keeping :
    ∃ s s' : State InMemory, s = ((Progress.advance keeping {})^[2] (beginMain keeping [] blankState)).state ∧
      execOp keeping none (.effect (.store (.const (.int 12 (-5))) (.value ⟨1⟩))) s = .ok (.next none) s' ∧
      execOp keeping none (.define ⟨2⟩ (.load (.value ⟨1⟩))) s' = .ok (.next (some (.int 12 (-5)))) s' ∧
      s.memory.DiffersOnlyAt s'.memory ⟨1, 2⟩ 2 := by
  let s := ((Progress.advance keeping {})^[2] (beginMain keeping [] blankState)).state
  have address : s.env.operand? (.value ⟨1⟩) = some (.ptr ⟨1, 2⟩) := by decide +kernel
  have stored : execOp keeping none (.effect (.store (.const (.int 12 (-5))) (.value ⟨1⟩))) s =
      .ok (.next none) { s with memory := s.memory.put ⟨1, 2⟩ (Value.encode 2 (.int 12 (-5))) } := by rfl
  have again := execOp_load_of_store (t := .int 12) (v := .int 12 (-5)) (by simp) ⟨rfl, rfl⟩ rfl rfl rfl
    address stored (j := .define ⟨2⟩ (.load (.value ⟨1⟩))) rfl rfl rfl address
  exact ⟨s, _, rfl, stored, again.1, again.2.2⟩

/-- Keeps a pointer far outside its allocation. -/
def straying : Function where
  name := "straying"
  params := []
  returns := .bytePtr
  values := #[⟨"p", .bytePtr⟩, ⟨"cell", .ptr .bytePtr⟩, ⟨"q", .bytePtr⟩, ⟨"r", .bytePtr⟩]
  blocks := #[⟨"entry", [
    .define ⟨0⟩ (.alloca (.int 8) 1),
    .define ⟨1⟩ (.alloca .bytePtr 1),
    .define ⟨2⟩ (.gep (.value ⟨0⟩) (.const (.int 64 2147483648))),
    .effect (.store (.value ⟨2⟩) (.value ⟨1⟩)),
    .define ⟨3⟩ (.load (.value ⟨1⟩)),
    .effect (.ret (some (.value ⟨3⟩)))]⟩]
  layout := [⟨0⟩]

/-- The pointer that is loaded is not the one that was stored. -/
theorem load_ne_of_straying :
    straying.validate = .ok () ∧ straying.checkScoping = .ok () ∧
      ((Progress.advance straying {})^[5] (beginMain straying [] blankState)).state.env[(⟨2⟩ : ValueId)]? =
        some (.ptr ⟨1, 2147483648⟩) ∧
      ((Progress.advance straying {})^[5] (beginMain straying [] blankState)).state.env[(⟨3⟩ : ValueId)]? =
        some (.ptr ⟨1, -2147483648⟩) :=
  ⟨eq_ok_of_toOption (by cbv), eq_ok_of_toOption (by cbv), by decide +kernel, by decide +kernel⟩

end CheckpointRestart
