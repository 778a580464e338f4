import CheckpointRestart.Proofs.Number.Rounding

/-! # The digits that are chosen read back

The decimal chosen for a binary number lies in the interval of the reals that round to it. There is
one on the finest grid that is tried, whose spacing is less than the width of the interval.
-/

namespace CheckpointRestart.Number

/-- The rational number that a decimal stands for. -/
def Decimal.value (d : Decimal) : ℚ :=
  d.digits * 10 ^ d.exponent

variable {fmt : Format} {m n d : Nat} {e : Int}

/-! ## The interval -/

namespace Rounding

theorem div_le_div_iff_mul_le {a b c d : Nat} (hb : 0 < b) (hd : 0 < d) :
    a * d ≤ c * b ↔ (a : ℚ) / b ≤ c / d := by
  rw [div_le_div_iff₀ (by exact_mod_cast hb) (by exact_mod_cast hd)]
  exact_mod_cast Iff.rfl

theorem div_lt_div_iff_mul_lt {a b c d : Nat} (hb : 0 < b) (hd : 0 < d) :
    a * d < c * b ↔ (a : ℚ) / b < c / d := by
  rw [div_lt_div_iff₀ (by exact_mod_cast hb) (by exact_mod_cast hd)]
  exact_mod_cast Iff.rfl

theorem den_ofBinary : 0 < (ofBinary fmt m e).den :=
  (isPower_powerOfTwo (e - 2)).down

theorem quarter_eq (e : Int) : (2 : ℚ) ^ e = 4 * 2 ^ (e - 2) := by
  have : (2 : ℚ) ^ e = 2 ^ (2 + (e - 2)) := by
    congr 1
    omega
  rw [this, zpow_add₀ two_ne_zero]
  norm_num

theorem div_den_ofBinary (k : Nat) :
    ((k * (powerOfTwo (e - 2)).1 : Nat) : ℚ) / (ofBinary fmt m e).den = k * 2 ^ (e - 2) := by
  have value := (isPower_powerOfTwo (e - 2)).value
  change ((k * (powerOfTwo (e - 2)).1 : Nat) : ℚ) / (powerOfTwo (e - 2)).2 = _
  rw [Nat.cast_mul, mul_div_assoc, value]
  norm_num

theorem value_ofBinary :
    ((ofBinary fmt m e).value : ℚ) / (ofBinary fmt m e).den = m * 2 ^ e := by
  rw [show (ofBinary fmt m e).value = 4 * m * (powerOfTwo (e - 2)).1 from rfl, div_den_ofBinary,
    quarter_eq e]
  push_cast
  ring

theorem high_ofBinary : ((ofBinary fmt m e).high : ℚ) / (ofBinary fmt m e).den =
    m * 2 ^ e + 2 ^ (e - 1) := by
  have half := Rounding.quarter_eq (e + 1)
  rw [show e + 1 - 2 = e - 1 by omega, zpow_add_one₀ two_ne_zero, quarter_eq e] at half
  rw [show (ofBinary fmt m e).high = (4 * m + 2) * (powerOfTwo (e - 2)).1 from rfl, div_den_ofBinary,
    quarter_eq e]
  push_cast
  linarith

theorem low_ofBinary (pos : 0 < m) : ((ofBinary fmt m e).low : ℚ) / (ofBinary fmt m e).den =
    m * 2 ^ e - (if fmt.Narrow m e then 2 ^ (e - 2) else 2 ^ (e - 1)) := by
  have half := Rounding.quarter_eq (e + 1)
  rw [show e + 1 - 2 = e - 1 by omega, zpow_add_one₀ two_ne_zero, quarter_eq e] at half
  by_cases narrow : fmt.Narrow m e
  · have low : (ofBinary fmt m e).low = (4 * m - 1) * (powerOfTwo (e - 2)).1 := by
      simp only [ofBinary]
      rw [if_pos (show m = twoPow fmt.fraction ∧ fmt.leastExponent < e from narrow)]
    rw [low, div_den_ofBinary, if_pos narrow, Nat.cast_sub (by omega), quarter_eq e]
    push_cast
    ring
  · have low : (ofBinary fmt m e).low = (4 * m - 2) * (powerOfTwo (e - 2)).1 := by
      simp only [ofBinary]
      rw [if_neg (show ¬ (m = twoPow fmt.fraction ∧ fmt.leastExponent < e) from narrow)]
    rw [low, div_den_ofBinary, if_neg narrow, Nat.cast_sub (by omega), quarter_eq e]
    push_cast
    linarith

theorem rounds_of_admits (pos : 0 < m) (hd : 0 < d) (h : (ofBinary fmt m e).admits n d = true) :
    fmt.Rounds m e (n / d) := by
  have den : 0 < (ofBinary fmt m e).den := den_ofBinary
  have closed : (ofBinary fmt m e).closed = decide (m % 2 = 0) := rfl
  have low : ((ofBinary fmt m e).low : ℚ) / _ = _ := low_ofBinary pos
  have high : ((ofBinary fmt m e).high : ℚ) / _ = _ := high_ofBinary
  simp only [admits, closed, decide_eq_true_eq] at h
  split at h
  · next even =>
    simp only [Bool.and_eq_true, decide_eq_true_eq] at h
    rw [div_le_div_iff_mul_le den hd, div_le_div_iff_mul_le hd den, low, high] at h
    exact ⟨h.1, h.2, fun _ => even⟩
  · simp only [Bool.and_eq_true, decide_eq_true_eq] at h
    rw [div_lt_div_iff_mul_lt den hd, div_lt_div_iff_mul_lt hd den, low, high] at h
    refine ⟨h.1.le, h.2.le, ?_⟩
    rintro (tie | tie)
    · exact absurd tie h.1.ne'
    · exact absurd tie h.2.ne

/-- The interval of a number admits what is less than a quarter of the last place away. -/
theorem admits_of_near (pos : 0 < m) (hd : 0 < d) (below : (m : ℚ) * 2 ^ e - 2 ^ (e - 2) < n / d)
    (above : (n : ℚ) / d < m * 2 ^ e + 2 ^ (e - 2)) : (ofBinary fmt m e).admits n d = true := by
  have den : 0 < (ofBinary fmt m e).den := den_ofBinary
  have quarter : (0 : ℚ) < 2 ^ (e - 2) := zpow_pos (by norm_num) _
  have half : (2 : ℚ) ^ (e - 1) = 2 * 2 ^ (e - 2) := by
    rw [← zpow_one_add₀ two_ne_zero]
    congr 1
    omega
  have low : (ofBinary fmt m e).low * d < n * (ofBinary fmt m e).den := by
    rw [div_lt_div_iff_mul_lt den hd, low_ofBinary pos]
    split <;> linarith
  have high : n * (ofBinary fmt m e).den < (ofBinary fmt m e).high * d := by
    rw [div_lt_div_iff_mul_lt hd den, high_ofBinary]
    linarith
  simp only [admits]
  split
  · simp [low.le, high.le]
  · simp [low, high]

/-! ## Grids -/

theorem admits_of_onGrid? {r : Rounding} {place : Int} {x : Decimal} (h : r.onGrid? place = some x) :
    x.exponent = place ∧ r.admits (x.digits * (powerOfTen place).1) (powerOfTen place).2 = true := by
  simp only [onGrid?] at h
  split at h
  · next below above =>
    cases h
    refine ⟨rfl, ?_⟩
    split
    · exact above
    · exact below
  · next below above =>
    cases h
    exact ⟨rfl, below⟩
  · next below above =>
    cases h
    exact ⟨rfl, above⟩
  · cases h

theorem onGrid?_isSome {place : Int} (pos : 0 < m) (fine : (10 : ℚ) ^ place < 2 * 2 ^ (e - 2)) :
    ((ofBinary fmt m e).onGrid? place).isSome = true := by
  have power := isPower_powerOfTen place
  have den : 0 < (ofBinary fmt m e).den := den_ofBinary
  have value : ((ofBinary fmt m e).value : ℚ) / _ = _ := value_ofBinary
  generalize hr : ofBinary fmt m e = r at den value
  have admitted : ∀ k : Nat, (m : ℚ) * 2 ^ e - 2 ^ (e - 2) < k * 10 ^ place →
      (k : ℚ) * 10 ^ place < m * 2 ^ e + 2 ^ (e - 2) →
      r.admits (k * (powerOfTen place).1) (powerOfTen place).2 = true := by
    intro k low high
    have eq : ((k * (powerOfTen place).1 : Nat) : ℚ) / (powerOfTen place).2 = k * 10 ^ place := by
      rw [Nat.cast_mul, mul_div_assoc, power.value]
      norm_num
    rw [← hr]
    exact admits_of_near pos power.down (eq ▸ low) (eq ▸ high)
  -- the value is between a decimal of the grid and the next one
  have spacing : (0 : ℚ) < 10 ^ place := zpow_pos (by norm_num) _
  have step : 0 < r.den * (powerOfTen place).1 := Nat.mul_pos den power.up
  have quotient : (r.value * (powerOfTen place).2 : ℚ) / (r.den * (powerOfTen place).1) =
      m * 2 ^ e / 10 ^ place := by
    rw [mul_div_mul_comm, value, ← inv_div (((powerOfTen place).1 : ℚ)), power.value]
    norm_num
    rfl
  have floor : ((r.value * (powerOfTen place).2 / (r.den * (powerOfTen place).1) : Nat) : ℚ) * 10 ^ place ≤
      m * 2 ^ e := by
    rw [← le_div_iff₀ spacing, ← quotient, le_div_iff₀ (by exact_mod_cast step)]
    exact_mod_cast Nat.div_mul_le_self _ _
  have next : (m : ℚ) * 2 ^ e <
      ((r.value * (powerOfTen place).2 / (r.den * (powerOfTen place).1) + 1 : Nat) : ℚ) * 10 ^ place := by
    rw [← div_lt_iff₀ spacing, ← quotient, div_lt_iff₀ (by exact_mod_cast step)]
    exact_mod_cast Nat.lt_mul_of_div_lt (Nat.lt_succ_self _) step
  simp only [onGrid?]
  generalize r.value * (powerOfTen place).2 / (r.den * (powerOfTen place).1) = k at floor next ⊢
  push_cast at next
  by_cases near : (m : ℚ) * 2 ^ e - k * 10 ^ place < 2 ^ (e - 2)
  · have := zpow_pos (a := (2 : ℚ)) (by norm_num) (e - 2)
    have below := admitted k (by linarith) (by linarith)
    rw [below]
    split <;> simp_all
  · have above := admitted (k + 1) (by push_cast; linarith) (by push_cast; linarith)
    rw [above]
    split <;> simp_all

/-- The finest grid is fine enough for numbers of up to 53 bits. -/
theorem exists_onGrid?_shortest (has : fmt.Has m e) (bits : fmt.fraction ≤ 52) :
    ∃ place, (ofBinary fmt m e).onGrid? place = some (ofBinary fmt m e).shortest := by
  have den : (ofBinary fmt m e).den ≠ 0 := den_ofBinary.ne'
  have nonzero : (ofBinary fmt m e).value ≠ 0 :=
    Nat.mul_ne_zero (Nat.mul_ne_zero (by decide) has.pos.ne') (isPower_powerOfTwo (e - 2)).up.ne'
  have order := (decimalOrder_spec nonzero den).1
  rw [value_ofBinary, quarter_eq e] at order
  have finest : ((ofBinary fmt m e).onGrid?
      (decimalOrder (ofBinary fmt m e).value (ofBinary fmt m e).den - 17)).isSome = true := by
    refine onGrid?_isSome has.pos ?_
    generalize decimalOrder (ofBinary fmt m e).value (ofBinary fmt m e).den = k at order
    have quarter : (0 : ℚ) < 2 ^ (e - 2) := zpow_pos (by norm_num) _
    have small : (m : ℚ) < 2 ^ 53 := by
      have : m < 2 ^ 53 := has.small.trans_le (Nat.pow_le_pow_right (by decide) (by omega))
      exact_mod_cast this
    rw [zpow_sub₀ (by norm_num), div_lt_iff₀ (by norm_num)]
    calc (10 : ℚ) ^ k ≤ m * (4 * 2 ^ (e - 2)) := order
      _ ≤ 2 ^ 53 * (4 * 2 ^ (e - 2)) := by gcongr
      _ < 2 * 2 ^ (e - 2) * 10 ^ (17 : ℤ) := by norm_num; linarith
  unfold shortest
  dsimp only
  cases found : ((List.range 18).map fun n : Nat =>
      decimalOrder (ofBinary fmt m e).value (ofBinary fmt m e).den - n).findSome?
      (ofBinary fmt m e).onGrid? with
  | some x =>
    obtain ⟨place, -, at_place⟩ := List.exists_of_findSome?_eq_some found
    exact ⟨place, at_place⟩
  | none =>
    have none : (ofBinary fmt m e).onGrid?
        (decimalOrder (ofBinary fmt m e).value (ofBinary fmt m e).den - 17) = none :=
      List.findSome?_eq_none_iff.mp found _ (List.mem_map.mpr ⟨17, List.mem_range.mpr (by decide), rfl⟩)
    rw [none] at finest
    cases finest

end Rounding

/-! ## The decimal that is written -/

theorem Decimal.value_stripZeros (fuel : Nat) (x : Decimal) : (x.stripZeros fuel).value = x.value := by
  induction fuel generalizing x with
  | zero => rfl
  | succ fuel ih =>
    rw [stripZeros]
    split
    · next zero =>
      rw [ih, value, value]
      have : (x.digits : ℚ) = 10 * ((x.digits / 10 : Nat) : ℚ) := by
        exact_mod_cast (Nat.mul_div_cancel' (Nat.dvd_of_mod_eq_zero zero)).symm
      rw [this, zpow_add_one₀ (by norm_num)]
      ring
    · rfl

theorem Decimal.value_normalize (x : Decimal) : x.normalize.value = x.value := by
  rw [normalize]
  split
  · next zero => simp [value, zero]
  · exact value_stripZeros _ x

/-- The decimal chosen for a number rounds to it. -/
theorem rounds_shortestDecimal (has : fmt.Has m e) (bits : fmt.fraction ≤ 52) :
    fmt.Rounds m e (shortestDecimal fmt m e).value := by
  obtain ⟨place, at_place⟩ := Rounding.exists_onGrid?_shortest has bits
  obtain ⟨exponent, admitted⟩ := Rounding.admits_of_onGrid? at_place
  have power := isPower_powerOfTen place
  have rounds := Rounding.rounds_of_admits has.pos power.down admitted
  rw [Nat.cast_mul, mul_div_assoc, power.value] at rounds
  rw [shortestDecimal, Decimal.value_normalize, Decimal.value, exponent]
  exact_mod_cast rounds

end CheckpointRestart.Number
