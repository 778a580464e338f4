import CheckpointRestart.Machine.Arithmetic
import CheckpointRestart.Proofs.Number.Word

/-! # Integer arithmetic is two's complement

Operations work on whole words, and the result is extended from the width of the operands. Here it
is said without words what the result is: an integer in the range of the width, which for each
operation is the only one there that agrees with the integers it is made of.
-/

namespace CheckpointRestart

open Word

namespace BinaryOp

variable {bits : Nat} {a b c : Int} {x y : Int64} {op : BinaryOp}

/-- By how much `b` shifts: its 64-bit pattern without sign, modulo the width. -/
def shiftBy (bits : Nat) (b : Int) : Nat :=
  (b % 2 ^ 64 % bits).toNat

/-- `c` is what the operation makes of `a` and `b` in two's complement of `bits` bits. The one
quotient that does not fit is the least integer again. -/
def Denotes (op : BinaryOp) (bits : Nat) (a b c : Int) : Prop :=
  match op with
  | add => c ≡ a + b [ZMOD 2 ^ bits]
  | sub => c ≡ a - b [ZMOD 2 ^ bits]
  | mul => c ≡ a * b [ZMOD 2 ^ bits]
  | div => c = if a = -2 ^ (bits - 1) ∧ b = -1 then -2 ^ (bits - 1) else a.tdiv b
  | rem => c = a - b * a.tdiv b
  | and => BitVec.ofInt bits c = BitVec.ofInt bits a &&& BitVec.ofInt bits b
  | or => BitVec.ofInt bits c = BitVec.ofInt bits a ||| BitVec.ofInt bits b
  | xor => BitVec.ofInt bits c = BitVec.ofInt bits a ^^^ BitVec.ofInt bits b
  | shl => c ≡ a * 2 ^ shiftBy bits b [ZMOD 2 ^ bits]
  | shr => c = a.fdiv (2 ^ shiftBy bits b)

/-! ## There is at most one result -/

theorem eq_of_ofInt_eq (pos : 1 ≤ bits) (ha : InRange bits a) (hb : InRange bits b)
    (same : BitVec.ofInt bits a = BitVec.ofInt bits b) : a = b := by
  have values := congrArg BitVec.toInt same
  rwa [BitVec.toInt_ofInt, BitVec.toInt_ofInt, ha.bmod_eq pos, hb.bmod_eq pos] at values

theorem Denotes.unique {c' : Int} (h : op.Denotes bits a b c) (h' : op.Denotes bits a b c')
    (pos : 1 ≤ bits) (hc : InRange bits c) (hc' : InRange bits c') : c = c' := by
  cases op with
  | add | sub | mul | shl => exact hc.eq_of_modEq hc' pos (Int.ModEq.trans h (Int.ModEq.symm h'))
  | and | or | xor => exact eq_of_ofInt_eq pos hc hc' (Eq.trans h (Eq.symm h'))
  | div | rem | shr => exact Eq.trans h (Eq.symm h')

/-! ## Results that fit -/

theorem modEq_bmod (bits : Nat) (a : Int) : a.bmod (2 ^ bits) ≡ a [ZMOD 2 ^ bits] := by
  have same := Int.bmod_emod (x := a) (m := 2 ^ bits)
  push_cast at same
  exact same

theorem bmod_word (le : bits ≤ 64) (a : Int) : (a.bmod (2 ^ 64)).bmod (2 ^ bits) = a.bmod (2 ^ bits) :=
  Int.bmod_bmod_of_dvd (Nat.pow_dvd_pow 2 le)

theorem tdiv_neg_one (a : Int) : a.tdiv (-1) = -a := by
  rw [Int.tdiv_neg, Int.tdiv_one]

theorem inRange_of_natAbs_lt (h : a.natAbs < 2 ^ (bits - 1)) : InRange bits a := by
  have h : ((a.natAbs : Nat) : Int) < 2 ^ (bits - 1) := by exact_mod_cast h
  exact ⟨by omega, by omega⟩

theorem natAbs_le_of_inRange (h : InRange bits a) : a.natAbs ≤ 2 ^ (bits - 1) := by
  obtain ⟨lower, upper⟩ := h
  have le : ((a.natAbs : Nat) : Int) ≤ 2 ^ (bits - 1) := by omega
  exact_mod_cast le

theorem inRange_tdiv (h : InRange bits a) (fits : ¬(a = -2 ^ (bits - 1) ∧ b = -1)) :
    InRange bits (a.tdiv b) := by
  by_cases minus : b = -1
  · obtain ⟨lower, upper⟩ := h
    have ne : a ≠ -2 ^ (bits - 1) := fun e => fits ⟨e, minus⟩
    rw [minus, tdiv_neg_one]
    exact ⟨by omega, by omega⟩
  · by_cases one : b = 1
    · rwa [one, Int.tdiv_one]
    · refine inRange_of_natAbs_lt ?_
      rw [Int.natAbs_tdiv]
      -- a divisor other than 0, 1 and -1 at least halves its dividend
      have most := natAbs_le_of_inRange h
      have positive := Nat.two_pow_pos (bits - 1)
      change a.natAbs / b.natAbs < _
      rcases Nat.eq_zero_or_pos b.natAbs with zero | some
      · rw [zero, Nat.div_zero]
        exact positive
      · have large : 2 ≤ b.natAbs := by omega
        rcases Nat.eq_zero_or_pos a.natAbs with zero | some
        · rw [zero, Nat.zero_div]
          exact positive
        · exact (Nat.div_lt_self some large).trans_le most

theorem inRange_tmod (h : InRange bits a) (b : Int) : InRange bits (a.tmod b) := by
  obtain ⟨lower, upper⟩ := h
  have positive : (0 : Int) < 2 ^ (bits - 1) := pow_pos (by decide) _
  have size : (a.tmod b).natAbs ≤ a.natAbs := by
    rw [Int.natAbs_tmod]
    exact Nat.mod_le _ _
  rcases le_total 0 a with up | down
  · have sign := Int.tmod_nonneg b up
    exact ⟨by omega, by omega⟩
  · have sign := Int.tmod_nonneg b (a := -a) (by omega)
    rw [Int.neg_tmod] at sign
    exact ⟨by omega, by omega⟩

theorem inRange_ediv_two_pow (h : InRange bits a) (s : Nat) : InRange bits (a / 2 ^ s) := by
  obtain ⟨lower, upper⟩ := h
  have positive : (0 : Int) < 2 ^ s := pow_pos (by decide) _
  have range : (0 : Int) < 2 ^ (bits - 1) := pow_pos (by decide) _
  constructor
  · rw [Int.le_ediv_iff_mul_le positive]
    nlinarith
  · rw [Int.ediv_lt_iff_lt_mul positive]
    nlinarith

/-! ## Patterns of words -/

theorem ofInt_toInt_word (le : bits ≤ 64) (x : Int64) :
    BitVec.ofInt bits x.toInt = x.toBitVec.setWidth bits := by
  rw [← Int64.toInt_toBitVec, ← BitVec.signExtend_eq_setWidth_of_le _ le]
  rfl

theorem ofInt_bmod (bits : Nat) (a : Int) : BitVec.ofInt bits (a.bmod (2 ^ bits)) = BitVec.ofInt bits a := by
  refine BitVec.eq_of_toInt_eq ?_
  rw [BitVec.toInt_ofInt, BitVec.toInt_ofInt, Int.bmod_bmod]

theorem toNat_toUInt64 (y : Int64) : (y.toUInt64.toNat : Int) = y.toInt % 2 ^ 64 := by
  have value : y.toUInt64.toNat = (y.toInt % ((2 ^ 64 : Nat) : Int)).toNat := by
    rw [← Int64.toNat_toBitVec, ← BitVec.toNat_ofInt, ← Int64.toInt_toBitVec, BitVec.ofInt_toInt]
  rw [value, Int.toNat_of_nonneg (Int.emod_nonneg _ (by decide))]
  rfl

theorem shiftAmount_eq (pos : 1 ≤ bits) (y : Int64) :
    shiftAmount bits y = Int64.ofNat (shiftBy bits y.toInt) := by
  unfold shiftAmount shiftBy
  rw [Nat.max_eq_left pos, ← toNat_toUInt64, ← Int.natCast_emod, Int.toNat_natCast]

theorem shiftBy_lt (pos : 1 ≤ bits) (b : Int) : shiftBy bits b < bits := by
  have lt := Int.emod_lt_of_pos (b % 2 ^ 64) (b := (bits : Int)) (by omega)
  have nonneg := Int.emod_nonneg (b % 2 ^ 64) (b := (bits : Int)) (by omega)
  unfold shiftBy
  omega

theorem smod_word {s : Nat} (lt : s < 64) : (Int64.ofNat s).toBitVec.smod 64 = BitVec.ofNat 64 s := by
  have value : (BitVec.ofNat 64 s).toInt = s := by
    rw [BitVec.toInt_eq_toNat_bmod, BitVec.toNat_ofNat, Nat.mod_eq_of_lt (by omega)]
    exact Int.bmod_eq_of_le_mul_two (by omega) (by omega)
  refine BitVec.eq_of_toInt_eq ?_
  change (BitVec.smod (BitVec.ofNat 64 s) 64).toInt = _
  rw [BitVec.toInt_smod, value]
  exact Int.fmod_eq_of_lt (by omega) (by change (s : Int) < 64; omega)

theorem toInt_shiftLeft {s : Nat} (lt : s < 64) (x : Int64) :
    (x <<< Int64.ofNat s).toInt = (x.toInt * 2 ^ s).bmod (2 ^ 64) := by
  rw [← Int64.toInt_toBitVec, Int64.toBitVec_shiftLeft, smod_word lt, BitVec.shiftLeft_eq',
    BitVec.toNat_ofNat, Nat.mod_eq_of_lt (by omega), BitVec.toInt_shiftLeft, Nat.shiftLeft_eq,
    ← Int64.toInt_toBitVec x, BitVec.toInt_eq_toNat_bmod x.toBitVec, Int.bmod_mul_bmod]
  push_cast
  rfl

theorem toInt_shiftRight {s : Nat} (lt : s < 64) (x : Int64) :
    (x >>> Int64.ofNat s).toInt = x.toInt / 2 ^ s := by
  rw [← Int64.toInt_toBitVec, Int64.toBitVec_shiftRight, smod_word lt, BitVec.sshiftRight_eq',
    BitVec.toNat_ofNat, Nat.mod_eq_of_lt (by omega), BitVec.toInt_sshiftRight,
    Int.shiftRight_eq_div_pow, Int64.toInt_toBitVec]
  push_cast
  rfl

/-! ## What the operations do -/

/-- Cut down to its width, the word that an operation gives is what the operation denotes. -/
theorem denotes_onWords (pos : 1 ≤ bits) (le : bits ≤ 64) (hx : InRange bits x.toInt)
    (defined : ¬((op = .div ∨ op = .rem) ∧ y = 0)) :
    ∃ r, op.onWords bits x y = .ok r ∧
      op.Denotes bits x.toInt y.toInt (r.toInt.bmod (2 ^ bits)) := by
  have nonzero (divides : op = .div ∨ op = .rem) : ¬y = 0 := fun e => defined ⟨divides, e⟩
  have reduce (c : Int) : (c.bmod (2 ^ 64)).bmod (2 ^ bits) ≡ c [ZMOD 2 ^ bits] := by
    rw [bmod_word le]
    exact modEq_bmod bits c
  have small := (shiftBy_lt pos y.toInt).trans_le le
  cases op with
  | add =>
    refine ⟨_, rfl, ?_⟩
    rw [Int64.toInt_add]
    exact reduce _
  | sub =>
    refine ⟨_, rfl, ?_⟩
    rw [Int64.toInt_sub]
    exact reduce _
  | mul =>
    refine ⟨_, rfl, ?_⟩
    rw [Int64.toInt_mul]
    exact reduce _
  | div =>
    refine ⟨_, if_neg (nonzero (.inl rfl)), ?_⟩
    rw [Int64.toInt_div, bmod_word le]
    unfold Denotes
    dsimp only
    split
    · next least =>
      -- the quotient is `2 ^ (bits - 1)`, which wraps to its opposite
      obtain ⟨ha, hb⟩ := least
      have fits : InRange bits (-2 ^ (bits - 1)) := ⟨le_rfl, by
        have positive : (0 : Int) < 2 ^ (bits - 1) := pow_pos (by decide) _
        omega⟩
      rw [ha, hb, tdiv_neg_one, neg_neg]
      refine (inRange_bmod pos _).eq_of_modEq fits pos ((modEq_bmod bits _).trans ?_)
      refine Int.modEq_iff_dvd.mpr ⟨-1, ?_⟩
      have whole := two_pow_eq pos
      push_cast at whole
      rw [whole]
      ring
    · next fits => exact (inRange_tdiv hx fits).bmod_eq pos
  | rem =>
    refine ⟨_, if_neg (nonzero (.inr rfl)), ?_⟩
    rw [Int64.toInt_mod, (inRange_tmod hx _).bmod_eq pos]
    exact Int.tmod_def _ _
  | and =>
    refine ⟨_, rfl, ?_⟩
    change BitVec.ofInt _ _ = _
    rw [ofInt_bmod, ofInt_toInt_word le, ofInt_toInt_word le, ofInt_toInt_word le, Int64.toBitVec_and,
      BitVec.setWidth_and]
  | or =>
    refine ⟨_, rfl, ?_⟩
    change BitVec.ofInt _ _ = _
    rw [ofInt_bmod, ofInt_toInt_word le, ofInt_toInt_word le, ofInt_toInt_word le, Int64.toBitVec_or,
      BitVec.setWidth_or]
  | xor =>
    refine ⟨_, rfl, ?_⟩
    change BitVec.ofInt _ _ = _
    rw [ofInt_bmod, ofInt_toInt_word le, ofInt_toInt_word le, ofInt_toInt_word le, Int64.toBitVec_xor,
      BitVec.setWidth_xor]
  | shl =>
    refine ⟨_, rfl, ?_⟩
    rw [shiftAmount_eq pos, toInt_shiftLeft small]
    exact reduce _
  | shr =>
    refine ⟨_, rfl, ?_⟩
    rw [shiftAmount_eq pos, toInt_shiftRight small, (inRange_ediv_two_pow hx _).bmod_eq pos]
    exact (Int.fdiv_eq_ediv_of_nonneg _ (pow_nonneg (by decide) _)).symm

theorem apply_int_eq (op : BinaryOp) (bits : Nat) (x y : Int64) :
    op.apply (.int bits x) (.int bits y) = (op.onWords bits x y).map (Value.ofInt bits) := by
  change (op.onWords bits x y >>= fun r => pure (Value.ofInt bits r)) = _
  cases op.onWords bits x y <;> rfl

theorem onWords_zero (divides : op = .div ∨ op = .rem) (x : Int64) :
    op.onWords bits x 0 = .error .divisionByZero := by
  rcases divides with rfl | rfl <;> rfl

/-- Operations on integers of a width give what they denote in two's complement, and fail only if
they divide by zero. -/
theorem apply_int_denotes (pos : 1 ≤ bits) (le : bits ≤ 64) (ha : InRange bits a) (hb : InRange bits b)
    (op : BinaryOp) :
    if (op = .div ∨ op = .rem) ∧ b = 0 then
      op.apply (.int bits (.ofInt a)) (.int bits (.ofInt b)) = .error .divisionByZero
    else ∃ c, InRange bits c ∧
      op.apply (.int bits (.ofInt a)) (.int bits (.ofInt b)) = .ok (.int bits (.ofInt c)) ∧
      op.Denotes bits a b c ∧ ∀ c', InRange bits c' → op.Denotes bits a b c' → c' = c := by
  have valueA := ha.toInt_ofInt le
  have valueB := hb.toInt_ofInt le
  rw [apply_int_eq]
  split
  · next zero =>
    obtain ⟨divides, rfl⟩ := zero
    rw [show Int64.ofInt 0 = 0 from rfl, onWords_zero divides]
    rfl
  · next defined =>
    have defined : ¬((op = .div ∨ op = .rem) ∧ Int64.ofInt b = 0) := by
      rintro ⟨divides, zero⟩
      rw [zero] at valueB
      exact defined ⟨divides, valueB.symm⟩
    have fits : InRange bits (Int64.ofInt a).toInt := by rwa [valueA]
    obtain ⟨r, run, denotes⟩ := denotes_onWords pos le fits defined
    rw [valueA, valueB] at denotes
    have inside := inRange_bmod pos r.toInt
    refine ⟨r.toInt.bmod (2 ^ bits), inside, ?_, denotes, fun c' fits' denotes' => ?_⟩
    · rw [run, ← toInt_signExtend pos le, Int64.ofInt_toInt]
      rfl
    · exact denotes'.unique denotes pos fits' inside

/-- The least integer of a width divided by -1 is itself. -/
theorem apply_int_denotes_least :
    InRange 8 (-128) ∧ InRange 8 (-1) ∧
      BinaryOp.div.apply (.int 8 (.ofInt (-128))) (.int 8 (.ofInt (-1))) = .ok (.int 8 (.ofInt (-128))) := by
  refine ⟨by decide, by decide, ?_⟩
  have given := apply_int_denotes (show 1 ≤ 8 by decide) (by decide) (a := -128) (by decide) (b := -1)
    (by decide) .div
  rw [if_neg (by decide)] at given
  obtain ⟨c, -, run, rfl, -⟩ := given
  exact run

end BinaryOp

end CheckpointRestart
