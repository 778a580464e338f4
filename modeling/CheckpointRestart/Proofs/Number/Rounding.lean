import CheckpointRestart.Number.Shortest
import Mathlib.Data.Nat.Digits.Lemmas
import Mathlib.Data.Rat.Cast.Order
import Mathlib.Tactic.FieldSimp
import Mathlib.Tactic.Linarith
import Mathlib.Tactic.NormNum
import Mathlib.Tactic.Positivity
import Mathlib.Tactic.Ring

/-! # Rounding to the nearest number

A quotient in the interval of a binary number is rounded to that number. The interval ends half way
to the neighbours; where it ends with a tie, the number is the even one.
-/

namespace CheckpointRestart.Number

/-! ## Powers as quotients -/

section Power

variable {b : Nat} {e : Int}

/-- A power of `b` as a numerator and a denominator. -/
structure IsPower (b : Nat) (e : Int) (power : Nat × Nat) : Prop where
  up : 0 < power.1
  down : 0 < power.2
  value : (power.1 : ℚ) / power.2 = (b : ℚ) ^ e

theorem isPower_ite (pos : 0 < b) (e : Int) :
    IsPower b e (if 0 ≤ e then (b ^ e.toNat, 1) else (1, b ^ (-e).toNat)) := by
  split
  · next h =>
    refine ⟨pow_pos pos _, Nat.one_pos, ?_⟩
    obtain ⟨n, rfl⟩ := Int.eq_ofNat_of_zero_le h
    simp
  · next h =>
    refine ⟨Nat.one_pos, pow_pos pos _, ?_⟩
    obtain ⟨n, rfl⟩ : ∃ n : Nat, e = -(n : Int) := ⟨(-e).toNat, by omega⟩
    simp

theorem isPower_powerOfTwo (e : Int) : IsPower 2 e (powerOfTwo e) :=
  isPower_ite (by decide) e

theorem isPower_powerOfTen (e : Int) : IsPower 10 e (powerOfTen e) :=
  isPower_ite (by decide) e

namespace IsPower

variable {power : Nat × Nat} (h : IsPower b e power)

include h

theorem up_eq : (power.1 : ℚ) = (b : ℚ) ^ e * power.2 := by
  have pos : (0 : ℚ) < power.2 := by exact_mod_cast h.down
  rw [← h.value]
  field_simp

theorem order {num den : Nat} {i j : Nat} (one : 1 < b) (hn : b ^ i ≤ num ∧ num < b ^ (i + 1))
    (hd : b ^ j ≤ den ∧ den < b ^ (j + 1)) (he : e = (i : Int) - j) :
    ∃ k, (if den * power.1 ≤ num * power.2 then e else e - 1) = k ∧
      (b : ℚ) ^ k ≤ num / den ∧ (num : ℚ) / den < (b : ℚ) ^ (k + 1) := by
  have b_pos : (0 : ℚ) < b := by exact_mod_cast Nat.lt_of_succ_lt one
  have b_ne : (b : ℚ) ≠ 0 := b_pos.ne'
  have den_pos : (0 : ℚ) < den := by exact_mod_cast (pow_pos (Nat.lt_of_succ_lt one) j).trans_le hd.1
  have down : (0 : ℚ) < power.2 := by exact_mod_cast h.down
  have n_low : (b : ℚ) ^ i ≤ num := by exact_mod_cast hn.1
  have n_high : (num : ℚ) < (b : ℚ) ^ (i + 1) := by exact_mod_cast hn.2
  have d_low : (b : ℚ) ^ j ≤ den := by exact_mod_cast hd.1
  have d_high : (den : ℚ) < (b : ℚ) ^ (j + 1) := by exact_mod_cast hd.2
  have split : (b : ℚ) ^ e * (b : ℚ) ^ j = (b : ℚ) ^ i := by
    rw [he, ← zpow_natCast, ← zpow_natCast, ← zpow_add₀ b_ne]
    congr 1
    omega
  have pow_pos_e : (0 : ℚ) < (b : ℚ) ^ e := zpow_pos b_pos e
  have compare : den * power.1 ≤ num * power.2 ↔ (b : ℚ) ^ e ≤ num / den := by
    rw [le_div_iff₀ den_pos, ← Nat.cast_le (α := ℚ), Nat.cast_mul, Nat.cast_mul, h.up_eq]
    constructor
    · intro le
      refine le_of_mul_le_mul_right ?_ down
      linarith
    · intro le
      have := mul_le_mul_of_nonneg_right le down.le
      linarith
  by_cases le : den * power.1 ≤ num * power.2
  · refine ⟨e, if_pos le, compare.mp le, ?_⟩
    rw [div_lt_iff₀ den_pos, zpow_add_one₀ b_ne]
    calc (num : ℚ) < (b : ℚ) ^ i * b := by rwa [← pow_succ]
      _ = (b : ℚ) ^ e * b * (b : ℚ) ^ j := by rw [← split]; ring
      _ ≤ (b : ℚ) ^ e * b * den := by gcongr
  · refine ⟨e - 1, if_neg le, ?_, ?_⟩
    · rw [le_div_iff₀ den_pos, zpow_sub_one₀ b_ne]
      calc (b : ℚ) ^ e * (b : ℚ)⁻¹ * den ≤ (b : ℚ) ^ e * (b : ℚ)⁻¹ * (b : ℚ) ^ (j + 1) := by gcongr
        _ = (b : ℚ) ^ i := by rw [pow_succ, ← split]; field_simp
        _ ≤ num := n_low
    · rw [sub_add_cancel]
      exact not_le.mp (compare.not.mp le)

end IsPower

end Power

theorem binaryOrder_spec {num den : Nat} (hn : num ≠ 0) (hd : den ≠ 0) :
    (2 : ℚ) ^ Format.binaryOrder num den ≤ num / den ∧
      (num : ℚ) / den < 2 ^ (Format.binaryOrder num den + 1) := by
  obtain ⟨k, hk, spec⟩ := (isPower_powerOfTwo ((num.log2 : Int) - den.log2)).order (by decide)
    ⟨Nat.log2_self_le hn, Nat.lt_log2_self⟩ ⟨Nat.log2_self_le hd, Nat.lt_log2_self⟩ rfl
  rw [show Format.binaryOrder num den = k from hk]
  exact spec

theorem digitCount_spec {n : Nat} (h : n ≠ 0) :
    10 ^ (digitCount n - 1) ≤ n ∧ n < 10 ^ (digitCount n - 1 + 1) := by
  have pos : 0 < digitCount n := Nat.length_toDigits_pos
  have iff : ∀ k, 0 < k → (digitCount n ≤ k ↔ n < 10 ^ k) := fun k hk =>
    Nat.length_toDigits_le_iff (by decide) hk
  refine ⟨?_, (iff _ (by omega)).mp (by omega)⟩
  by_contra below
  by_cases one : digitCount n = 1
  · simp [one] at below
    exact h below
  · have := (iff (digitCount n - 1) (by omega)).mpr (by omega)
    omega

theorem decimalOrder_spec {num den : Nat} (hn : num ≠ 0) (hd : den ≠ 0) :
    (10 : ℚ) ^ decimalOrder num den ≤ num / den ∧
      (num : ℚ) / den < 10 ^ (decimalOrder num den + 1) := by
  have n_pos : 0 < digitCount num := Nat.length_toDigits_pos
  have d_pos : 0 < digitCount den := Nat.length_toDigits_pos
  obtain ⟨k, hk, spec⟩ := (isPower_powerOfTen ((digitCount num : Int) - digitCount den)).order
    (by decide) (digitCount_spec hn) (digitCount_spec hd) (by omega)
  rw [show decimalOrder num den = k from hk]
  exact spec

/-! ## To the nearest integer -/

/-- A quotient less than half away from an integer is rounded to it, and so is a tie if the integer
is even. -/
theorem roundDiv_eq {num den m : Nat} (pos : 0 < den) (low : 2 * m * den ≤ 2 * num + den)
    (high : 2 * num ≤ 2 * m * den + den)
    (tie : 2 * m * den = 2 * num + den ∨ 2 * num = 2 * m * den + den → m % 2 = 0) :
    roundDiv num den = m := by
  have split : num = den * (num / den) + num % den := (Nat.div_add_mod num den).symm
  have rest : num % den < den := Nat.mod_lt _ pos
  unfold roundDiv
  generalize num / den = q at *
  generalize num % den = r at *
  have below : q ≤ m := by
    by_contra lt
    have : (m + 1) * den ≤ q * den := Nat.mul_le_mul_right den (by omega)
    nlinarith
  have above : m ≤ q + 1 := by
    by_contra lt
    have : (q + 2) * den ≤ m * den := Nat.mul_le_mul_right den (by omega)
    nlinarith
  rcases Nat.eq_or_lt_of_le below with rfl | lt
  · have half : 2 * r ≤ den := by nlinarith
    rw [if_neg]
    rintro (more | ⟨even, odd⟩)
    · omega
    · have := tie (.inr (by nlinarith))
      omega
  · obtain rfl : m = q + 1 := by omega
    have half : den ≤ 2 * r := by nlinarith
    rw [if_pos]
    rcases Nat.eq_or_lt_of_le half with eq | lt
    · have := tie (.inl (by nlinarith))
      exact .inr ⟨eq.symm, by omega⟩
    · exact .inl lt

theorem roundDiv_scaled {num den m : Nat} {q : Int} (hd : den ≠ 0)
    (low : (m : ℚ) * 2 ^ q - 2 ^ (q - 1) ≤ num / den) (high : (num : ℚ) / den ≤ m * 2 ^ q + 2 ^ (q - 1))
    (tie : (num : ℚ) / den = m * 2 ^ q - 2 ^ (q - 1) ∨ (num : ℚ) / den = m * 2 ^ q + 2 ^ (q - 1) →
      m % 2 = 0) :
    roundDiv (num * (powerOfTwo q).2) (den * (powerOfTwo q).1) = m := by
  have power := isPower_powerOfTwo q
  have den_pos : (0 : ℚ) < den := by exact_mod_cast Nat.pos_of_ne_zero hd
  have down : (0 : ℚ) < (powerOfTwo q).2 := by exact_mod_cast power.down
  have half : (2 : ℚ) ^ q = 2 * 2 ^ (q - 1) := by
    rw [← zpow_one_add₀ two_ne_zero]
    congr 1
    omega
  have up : ((powerOfTwo q).1 : ℚ) = 2 * 2 ^ (q - 1) * (powerOfTwo q).2 := by
    rw [← half]
    exact_mod_cast power.up_eq
  rw [half] at low high tie
  generalize hx : (num : ℚ) / den = x at *
  have num_eq : (num : ℚ) = x * den := by
    rw [← hx]
    field_simp
  generalize (2 : ℚ) ^ (q - 1) = h at *
  have scale : (0 : ℚ) < den * (powerOfTwo q).2 := mul_pos den_pos down
  refine roundDiv_eq (Nat.mul_pos (Nat.pos_of_ne_zero hd) power.up) ?_ ?_ ?_
  · have := mul_le_mul_of_nonneg_right low scale.le
    rw [← Nat.cast_le (α := ℚ)]
    push_cast
    rw [up, num_eq]
    linarith
  · have := mul_le_mul_of_nonneg_right high scale.le
    rw [← Nat.cast_le (α := ℚ)]
    push_cast
    rw [up, num_eq]
    linarith
  · rw [← Nat.cast_inj (R := ℚ), ← Nat.cast_inj (R := ℚ)]
    push_cast
    rw [up, num_eq]
    rintro (even | even)
    · refine tie (.inl (mul_right_cancel₀ scale.ne' ?_))
      linarith
    · refine tie (.inr (mul_right_cancel₀ scale.ne' ?_))
      linarith

/-! ## To the nearest number of a format -/

namespace Format

variable {fmt : Format} {m num den : Nat} {e : Int}

/-- The positive numbers `m * 2 ^ e` of a format, one way to write each. -/
structure Has (fmt : Format) (m : Nat) (e : Int) : Prop where
  pos : 0 < m
  small : m < 2 ^ (fmt.fraction + 1)
  least : fmt.leastExponent ≤ e
  full : fmt.leastExponent < e → 2 ^ fmt.fraction ≤ m

def magnitude (fmt : Format) (m : Nat) (e : Int) : Nat :=
  if m < twoPow fmt.fraction then m else (e - fmt.leastExponent).toNat * twoPow fmt.fraction + m

/-- The least number above a power of two has a neighbour that is nearer. -/
def Narrow (fmt : Format) (m : Nat) (e : Int) : Prop :=
  m = twoPow fmt.fraction ∧ fmt.leastExponent < e

instance : Decidable (fmt.Narrow m e) :=
  inferInstanceAs (Decidable (_ ∧ _))

/-- The quotient `x` rounds to `m * 2 ^ e`. -/
structure Rounds (fmt : Format) (m : Nat) (e : Int) (x : ℚ) : Prop where
  low : (m : ℚ) * 2 ^ e - (if fmt.Narrow m e then 2 ^ (e - 2) else 2 ^ (e - 1)) ≤ x
  high : x ≤ m * 2 ^ e + 2 ^ (e - 1)
  tie : x = m * 2 ^ e - (if fmt.Narrow m e then 2 ^ (e - 2) else 2 ^ (e - 1)) ∨
    x = m * 2 ^ e + 2 ^ (e - 1) → m % 2 = 0

/-- The pattern that comes of rounding to `k * 2 ^ q`. -/
theorem roundRatio_of_roundDiv {negative : Bool} {q : Int} {k : Nat} (hn : num ≠ 0)
    (hq : max (binaryOrder num den - fmt.fraction) fmt.leastExponent = q)
    (hk : roundDiv (num * (powerOfTwo q).2) (den * (powerOfTwo q).1) = k)
    (finite : fmt.magnitude k q < fmt.topExponent * twoPow fmt.fraction) :
    fmt.roundRatio negative num den = fmt.signBit negative + fmt.magnitude k q := by
  rw [roundRatio, if_neg hn]
  simp only [hq, hk]
  exact if_neg (Nat.not_le.mpr finite)

theorem magnitude_carry (least : fmt.leastExponent < e) :
    fmt.magnitude (2 ^ (fmt.fraction + 1)) (e - 1) = fmt.magnitude (2 ^ fmt.fraction) e := by
  have twoPow_eq : twoPow fmt.fraction = 2 ^ fmt.fraction := rfl
  have double : 2 ^ (fmt.fraction + 1) = 2 * 2 ^ fmt.fraction := by ring
  have pos : 0 < 2 ^ fmt.fraction := by positivity
  obtain ⟨n, hn⟩ : ∃ n : Nat, e - fmt.leastExponent = n + 1 := ⟨(e - fmt.leastExponent - 1).toNat, by omega⟩
  have now : (e - fmt.leastExponent).toNat = n + 1 := by omega
  have before : (e - 1 - fmt.leastExponent).toNat = n := by omega
  rw [magnitude, magnitude, twoPow_eq, if_neg (by omega), if_neg (by omega), now, before, double]
  ring

/-- A quotient that rounds to a number of the format is rounded to it. -/
theorem roundRatio_eq {negative : Bool} (has : fmt.Has m e) (hn : num ≠ 0) (hd : den ≠ 0)
    (rounds : fmt.Rounds m e (num / den))
    (finite : fmt.magnitude m e < fmt.topExponent * twoPow fmt.fraction) :
    fmt.roundRatio negative num den = fmt.signBit negative + fmt.magnitude m e := by
  have two : (2 : ℚ) ≠ 0 := two_ne_zero
  obtain ⟨order_low, order_high⟩ := binaryOrder_spec hn hd
  have pos : ∀ k : Int, (0 : ℚ) < 2 ^ k := fun k => zpow_pos (by norm_num) k
  have step : ∀ k : Int, (2 : ℚ) ^ k = 2 * 2 ^ (k - 1) := fun k => by
    rw [← zpow_one_add₀ two]
    congr 1
    omega
  have quarter : (2 : ℚ) ^ (e - 1) = 2 * 2 ^ (e - 2) := by
    rw [step (e - 1)]
    congr 2
    omega
  have gap : (if fmt.Narrow m e then (2 : ℚ) ^ (e - 2) else 2 ^ (e - 1)) ≤ 2 ^ (e - 1) := by
    split
    · have := pos (e - 2)
      linarith
    · exact le_refl _
  have cast : ∀ n : Nat, (2 : ℚ) ^ (n + e) = 2 ^ n * 2 ^ e := fun n => by
    rw [zpow_add₀ two, zpow_natCast]
  -- the quotient is below the next power of two
  have below : (num : ℚ) / den < 2 ^ (((fmt.fraction + 1 : Nat) : Int) + e) := by
    have small : (m : ℚ) + 1 ≤ 2 ^ (fmt.fraction + 1) := by exact_mod_cast has.small
    have := mul_le_mul_of_nonneg_right small (pos e).le
    have := pos (e - 1)
    have := rounds.high
    rw [cast]
    linarith [step e]
  have order_le : binaryOrder num den - fmt.fraction ≤ e := by
    by_contra gt
    have : (2 : ℚ) ^ (((fmt.fraction + 1 : Nat) : Int) + e) ≤ 2 ^ binaryOrder num den :=
      zpow_le_zpow_right₀ (by norm_num) (by push_cast; omega)
    linarith
  have q_le : max (binaryOrder num den - fmt.fraction) fmt.leastExponent ≤ e := max_le order_le has.least
  rcases eq_or_lt_of_le q_le with hq | hq
  · refine roundRatio_of_roundDiv hn hq (roundDiv_scaled hd ?_ rounds.high ?_) finite
    · linarith [rounds.low]
    · rintro (even | even)
      · refine rounds.tie (.inl (le_antisymm ?_ rounds.low))
        rw [even]
        linarith
      · exact rounds.tie (.inr even)
  · -- only a power of two is rounded up to from below
    have least : fmt.leastExponent < e := (le_max_right _ _).trans_lt hq
    have full : (2 : ℚ) ^ fmt.fraction ≤ m := by exact_mod_cast has.full least
    have under : (num : ℚ) / den < 2 ^ ((fmt.fraction : Int) + e) := by
      refine order_high.trans_le (zpow_le_zpow_right₀ (by norm_num) ?_)
      have := (le_max_left _ _).trans_lt hq
      omega
    rw [cast] at under
    have exact_ : m = 2 ^ fmt.fraction := by
      have lt : (m : ℚ) * 2 ^ e < (2 ^ fmt.fraction + 1) * 2 ^ e := by
        have := pos (e - 1)
        linarith [rounds.low, step e]
      have : m < 2 ^ fmt.fraction + 1 := by exact_mod_cast lt_of_mul_lt_mul_right lt (pos e).le
      have := has.full least
      omega
    have low := rounds.low
    rw [if_pos ⟨exact_, least⟩] at low
    have order_ge : (fmt.fraction : Int) + e - 1 ≤ binaryOrder num den := by
      by_contra lt
      have : (num : ℚ) / den < 2 ^ ((fmt.fraction : Int) + e - 1) :=
        order_high.trans_le (zpow_le_zpow_right₀ (by norm_num) (by omega))
      have := step ((fmt.fraction : Int) + e)
      rw [cast] at this
      have one : (1 : ℚ) ≤ 2 ^ fmt.fraction := one_le_pow₀ (by norm_num)
      have := mul_le_mul_of_nonneg_right one (pos e).le
      have := mul_le_mul_of_nonneg_right full (pos e).le
      linarith [pos (e - 2), step e]
    have hq : max (binaryOrder num den - fmt.fraction) fmt.leastExponent = e - 1 := by
      have : binaryOrder num den - fmt.fraction ≤ e - 1 := by
        have := (le_max_left _ _).trans_lt hq
        omega
      rw [max_eq_left (by omega)]
      omega
    have same : (2 : ℚ) ^ (fmt.fraction + 1) * 2 ^ (e - 1) = 2 ^ fmt.fraction * 2 ^ e := by
      rw [pow_succ, step e]
      ring
    have carry := magnitude_carry least
    rw [exact_] at finite ⊢
    rw [← carry] at finite ⊢
    refine roundRatio_of_roundDiv hn hq (roundDiv_scaled hd ?_ ?_ fun _ => ?_) finite
    · rw [show e - 1 - 1 = e - 2 by omega]
      rw [exact_] at low
      push_cast at low ⊢
      linarith
    · have := pos (e - 1 - 1)
      push_cast
      linarith
    · rw [pow_succ]
      omega

end Format

end CheckpointRestart.Number
