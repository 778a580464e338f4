import CheckpointRestart.Number.Word
import Mathlib

/-! # Integers of a width

Extending a word from a width gives the one integer in the two's complement range of that width
that agrees with the word modulo a power of two.
-/

namespace CheckpointRestart.Word

variable {bits : Nat} {a b : Int}

/-- The integers that `bits` bits can hold in two's complement. -/
def InRange (bits : Nat) (a : Int) : Prop :=
  -2 ^ (bits - 1) ≤ a ∧ a < 2 ^ (bits - 1)

instance : Decidable (InRange bits a) :=
  inferInstanceAs (Decidable (_ ∧ _))

theorem two_pow_eq (pos : 1 ≤ bits) : ((2 ^ bits : Nat) : Int) = 2 * 2 ^ (bits - 1) := by
  obtain ⟨n, rfl⟩ := Nat.exists_eq_add_of_le' pos
  rw [Nat.add_sub_cancel, Nat.cast_pow, pow_succ, mul_comm]
  rfl

theorem inRange_bmod (pos : 1 ≤ bits) (a : Int) : InRange bits (a.bmod (2 ^ bits)) := by
  have lower := Int.le_bmod (x := a) (Nat.two_pow_pos bits)
  have upper := Int.bmod_lt (x := a) (Nat.two_pow_pos bits)
  rw [two_pow_eq pos] at lower upper
  exact ⟨by omega, by omega⟩

namespace InRange

theorem bmod_eq (h : InRange bits a) (pos : 1 ≤ bits) : a.bmod (2 ^ bits) = a := by
  obtain ⟨lower, upper⟩ := h
  refine Int.bmod_eq_of_le_mul_two ?_ ?_
  · rw [two_pow_eq pos]
    omega
  · rw [two_pow_eq pos]
    omega

theorem eq_of_modEq (ha : InRange bits a) (hb : InRange bits b) (pos : 1 ≤ bits)
    (same : a ≡ b [ZMOD 2 ^ bits]) : a = b := by
  have same : a % (2 ^ bits : Nat) = b % (2 ^ bits : Nat) := by exact_mod_cast same
  rw [← ha.bmod_eq pos, ← hb.bmod_eq pos, ← Int.emod_bmod a, same, Int.emod_bmod]

theorem mono {wider : Nat} (h : InRange bits a) (le : bits ≤ wider) : InRange wider a := by
  have grows : (2 : Int) ^ (bits - 1) ≤ 2 ^ (wider - 1) :=
    pow_le_pow_right₀ (by decide) (Nat.sub_le_sub_right le 1)
  obtain ⟨lower, upper⟩ := h
  exact ⟨by omega, by omega⟩

theorem toInt_ofInt (h : InRange bits a) (le : bits ≤ 64) : (Int64.ofInt a).toInt = a := by
  obtain ⟨lower, upper⟩ := h.mono le
  exact Int64.toInt_ofInt_of_le lower upper

end InRange

theorem inRange_toInt (x : Int64) : InRange 64 x.toInt :=
  ⟨x.le_toInt, x.toInt_lt⟩

theorem toInt_signExtend (pos : 1 ≤ bits) (le : bits ≤ 64) (x : Int64) :
    (signExtend x bits).toInt = x.toInt.bmod (2 ^ bits) := by
  unfold signExtend
  split
  · next whole =>
    obtain rfl : bits = 64 := by omega
    exact ((inRange_toInt x).bmod_eq pos).symm
  · exact (inRange_bmod pos _).toInt_ofInt le

theorem signExtend_congr {x y : Int64} (pos : 1 ≤ bits) (le : bits ≤ 64)
    (same : x.toInt.bmod (2 ^ bits) = y.toInt.bmod (2 ^ bits)) :
    signExtend x bits = signExtend y bits := by
  rw [← Int64.toInt_inj, toInt_signExtend pos le, toInt_signExtend pos le, same]

end CheckpointRestart.Word
