import CheckpointRestart.Number.Literal
import CheckpointRestart.Proofs.Number.Shortest
import CheckpointRestart.Proofs.Text.Decimal

/-! # Floating point numbers are read back

What is written for a bit pattern is read as the same pattern, with one exception: all NaNs are
written alike.
-/

namespace CheckpointRestart.Number

open CheckpointRestart.Text

namespace Literal

/-! ## Reading digits -/

variable {whole fraction tail : List Char}

theorem takeWhile_isDigit (digits : ∀ c ∈ whole, c.isDigit = true)
    (stop : ∀ c ∈ tail.head?, c.isDigit = false) :
    (whole ++ tail).takeWhile Char.isDigit = whole ∧ (whole ++ tail).dropWhile Char.isDigit = tail := by
  rw [List.takeWhile_append_of_pos digits, List.dropWhile_append_of_pos digits]
  cases tail with
  | nil => simp
  | cons c tail => simp [stop c rfl]

theorem decimal?_point {k : Int} (nonempty : whole ≠ []) (digits : ∀ c ∈ whole, c.isDigit = true)
    (more : ∀ c ∈ fraction, c.isDigit = true) (stop : ∀ c ∈ tail.head?, c.isDigit = false)
    (exponent : exponent? tail = some k) :
    decimal? (whole ++ '.' :: (fraction ++ tail)) =
      some ⟨Nat.ofDigitChars 10 (whole ++ fraction) 0, k - fraction.length⟩ := by
  have first : (whole ++ '.' :: (fraction ++ tail)).takeWhile Char.isDigit = whole ∧ _ :=
    takeWhile_isDigit digits (by simp)
  have second := takeWhile_isDigit more stop
  have all : digits? (whole ++ fraction) = some (Nat.ofDigitChars 10 (whole ++ fraction) 0) :=
    digits?_of_isDigit (by simp [nonempty])
      fun c hc => (List.mem_append.mp hc).elim (digits c) (more c)
  simp only [decimal?, first.1, first.2, second.1, second.2, all, exponent]
  rfl

theorem decimal?_plain {k : Int} (nonempty : whole ≠ []) (digits : ∀ c ∈ whole, c.isDigit = true)
    (stop : ∀ c ∈ tail.head?, c.isDigit = false ∧ c ≠ '.') (exponent : exponent? tail = some k) :
    decimal? (whole ++ tail) = some ⟨Nat.ofDigitChars 10 whole 0, k⟩ := by
  have first := takeWhile_isDigit digits fun c hc => (stop c hc).1
  have all : digits? whole = some (Nat.ofDigitChars 10 whole 0) := digits?_of_isDigit nonempty digits
  simp only [decimal?, first.1, first.2]
  split
  · exact absurd rfl (stop '.' rfl).2
  · simp [all, exponent]

theorem exponent?_toString (k : Int) : exponent? ('e' :: (toString k).toList) = some k := by
  cases k with
  | ofNat n =>
    have text : (toString (Int.ofNat n)).toList = Nat.toDigits 10 n := toList_toString n
    rw [text, exponent?, digits?_toDigits]
    · rfl
    · exact fun rest e => toDigits_ne_cons (by decide) n rest e
    · exact fun rest e => toDigits_ne_cons (by decide) n rest e
  | negSucc n =>
    rw [toList_toString_negSucc, exponent?]
    simp only [digits?_toDigits]
    rfl

end Literal

/-! ## Writing digits -/

namespace Layout

variable {x : Decimal}

theorem zeros_toList (n : Nat) : (zeros n).toList = List.replicate n '0' :=
  String.toList_ofList

theorem isDigit_of_mem_zeros {c : Char} {n : Nat} (h : c ∈ List.replicate n '0') : c.isDigit = true := by
  rw [List.eq_of_mem_replicate h]
  rfl

theorem positional_toList (d : Decimal) : (source.positional d).toList =
    if 0 ≤ d.exponent then
      (Nat.toDigits 10 d.digits ++ List.replicate (if d.digits = 0 then 0 else d.exponent.toNat) '0') ++
        '.' :: (['0'] ++ [])
    else if (-d.exponent).toNat < (Nat.toDigits 10 d.digits).length then
      (Nat.toDigits 10 d.digits).take ((Nat.toDigits 10 d.digits).length - (-d.exponent).toNat) ++
        '.' :: ((Nat.toDigits 10 d.digits).drop
          ((Nat.toDigits 10 d.digits).length - (-d.exponent).toNat) ++ [])
    else
      ['0'] ++ '.' :: ((List.replicate ((-d.exponent).toNat - (Nat.toDigits 10 d.digits).length) '0' ++
        Nat.toDigits 10 d.digits) ++ []) := by
  unfold positional
  dsimp only
  split
  · simp [source, zeros_toList]
  · split
    · simp
    · simp [zeros_toList]

theorem decimal?_positional (d : Decimal) :
    ∃ d', Literal.decimal? (source.positional d).toList = some d' ∧ d'.value = d.value := by
  have ten : (10 : ℚ) ≠ 0 := by norm_num
  have digits : ∀ c ∈ Nat.toDigits 10 d.digits, c.isDigit = true := fun c => isDigit_of_mem_toDigits
  rw [positional_toList]
  split
  · next nonneg =>
    refine ⟨_, Literal.decimal?_point (by simp [Nat.toDigits_ne_nil]) ?_ (by simp) (by simp) rfl, ?_⟩
    · intro c hc
      exact (List.mem_append.mp hc).elim (digits c) isDigit_of_mem_zeros
    · rw [Nat.ofDigitChars_append, Nat.ofDigitChars_append, Nat.ofDigitChars_ten_toDigits,
        Nat.ofDigitChars_replicate_zero, Decimal.value, Decimal.value]
      obtain ⟨n, hn⟩ := Int.eq_ofNat_of_zero_le nonneg
      by_cases zero : d.digits = 0
      · simp [zero, Nat.ofDigitChars_cons]
      · simp [zero, hn, Nat.ofDigitChars_cons]
        ring
  · next neg =>
    obtain ⟨n, hn⟩ : ∃ n : Nat, d.exponent = -(n : Int) := ⟨(-d.exponent).toNat, by omega⟩
    have places : (-d.exponent).toNat = n := by omega
    rw [places]
    split
    · next few =>
      refine ⟨_, Literal.decimal?_point ?_ (fun c hc => digits c (List.mem_of_mem_take hc))
        (fun c hc => digits c (List.mem_of_mem_drop hc)) (by simp) rfl, ?_⟩
      · rw [Ne, List.take_eq_nil_iff, not_or]
        exact ⟨by omega, Nat.toDigits_ne_nil⟩
      · rw [List.take_append_drop, Nat.ofDigitChars_ten_toDigits, Decimal.value, Decimal.value, hn,
          List.length_drop]
        congr 2
        dsimp only
        omega
    · next many =>
      refine ⟨_, Literal.decimal?_point (by simp) (by simp) ?_ (by simp) rfl, ?_⟩
      · intro c hc
        exact (List.mem_append.mp hc).elim isDigit_of_mem_zeros (digits c)
      · have number : Nat.ofDigitChars 10 (['0'] ++ (List.replicate
            (n - (Nat.toDigits 10 d.digits).length) '0' ++ Nat.toDigits 10 d.digits)) 0 = d.digits := by
          rw [Nat.ofDigitChars_append, Nat.ofDigitChars_append, Nat.ofDigitChars_replicate_zero]
          simp [Nat.ofDigitChars_cons, Nat.ofDigitChars_ten_toDigits]
        rw [number, Decimal.value, Decimal.value, hn, List.length_append, List.length_replicate]
        congr 2
        dsimp only
        omega

theorem exponential_toList {d : Decimal} {c : Char} {rest : List Char}
    (h : Nat.toDigits 10 d.digits = c :: rest) : (exponential d).toList =
      if rest = [] then [c] ++ 'e' :: (toString (d.exponent + rest.length)).toList
      else [c] ++ '.' :: (rest ++ 'e' :: (toString (d.exponent + rest.length)).toList) := by
  have order : d.exponent + ((c :: rest).length : Int) - 1 = d.exponent + rest.length := by
    rw [List.length_cons]
    omega
  simp only [exponential, h, order, List.drop_succ_cons, List.drop_zero, List.take_succ_cons,
    List.take_zero, String.toList_append, String.toList_ofList]
  cases rest with
  | nil => rfl
  | cons d rest => simp

theorem decimal?_exponential (d : Decimal) :
    ∃ d', Literal.decimal? (exponential d).toList = some d' ∧ d'.value = d.value := by
  have digits : ∀ c ∈ Nat.toDigits 10 d.digits, c.isDigit = true := fun c => isDigit_of_mem_toDigits
  have number := Nat.ofDigitChars_ten_toDigits (n := d.digits)
  cases h : Nat.toDigits 10 d.digits with
  | nil => exact absurd h Nat.toDigits_ne_nil
  | cons c rest =>
    rw [h] at digits number
    rw [exponential_toList h]
    split
    · next none =>
      subst none
      refine ⟨_, Literal.decimal?_plain (by simp) digits ?_ (Literal.exponent?_toString _), ?_⟩
      · rintro _ ⟨⟩
        decide
      · rw [number, Decimal.value, Decimal.value]
        simp
    · refine ⟨_, Literal.decimal?_point (by simp) (fun x hx => digits x ?_)
        (fun x hx => digits x (List.mem_cons_of_mem _ hx)) ?_ (Literal.exponent?_toString _), ?_⟩
      · rw [List.mem_singleton.mp hx]
        exact List.mem_cons_self
      · rintro _ ⟨⟩
        decide
      · rw [List.singleton_append, number, Decimal.value, Decimal.value]
        congr 2
        dsimp only
        omega

end Layout

/-! ## Patterns -/

namespace Format

variable {fmt : Format} {m : Nat} {e : Int}

/-- The two formats of the language. -/
def Standard (fmt : Format) : Prop :=
  fmt = single ∨ fmt = double

def patterns (fmt : Format) : Nat :=
  2 ^ (fmt.fraction + fmt.exponent + 1)

/-- The pattern with a NaN made the quiet one without a sign. -/
def canonical (fmt : Format) (bits : Nat) : Nat :=
  match fmt.decode bits with
  | .nan _ _ => fmt.quietNaN false 0
  | _ => bits

theorem Standard.bounds (std : fmt.Standard) :
    fmt.fraction ≤ 52 ∧ -1074 ≤ fmt.leastExponent ∧ fmt.leastExponent + fmt.topExponent ≤ 973 := by
  rcases std with rfl | rfl <;> decide

theorem bits_eq {bits : Nat} (lt : bits < fmt.patterns) :
    bits = fmt.signBit (bits / twoPow (fmt.fraction + fmt.exponent) % 2 = 1) +
      (bits / twoPow fmt.fraction % twoPow fmt.exponent) * twoPow fmt.fraction +
      bits % twoPow fmt.fraction := by
  have whole : twoPow (fmt.fraction + fmt.exponent) = twoPow fmt.fraction * twoPow fmt.exponent :=
    Nat.pow_add 2 _ _
  have high : bits / (twoPow fmt.fraction * twoPow fmt.exponent) < 2 := by
    rw [← whole]
    refine Nat.div_lt_of_lt_mul ?_
    rwa [patterns, Nat.pow_succ] at lt
  have split := Nat.div_add_mod bits (twoPow fmt.fraction)
  have split' := Nat.div_add_mod (bits / twoPow fmt.fraction) (twoPow fmt.exponent)
  rw [Nat.div_div_eq_div_mul] at split'
  rw [signBit, whole]
  generalize bits / (twoPow fmt.fraction * twoPow fmt.exponent) = sign at *
  generalize bits / twoPow fmt.fraction % twoPow fmt.exponent = field at *
  rw [← split'] at split
  conv_lhs => rw [← split]
  obtain rfl | rfl : sign = 0 ∨ sign = 1 := by omega
  · simp [Nat.mul_comm]
  · simp only [Nat.mod_succ, decide_true, if_true]
    ring

/-- A finite pattern is the sign and the magnitude of what it stands for. -/
theorem bits_of_decode {bits : Nat} {s : Bool} (lt : bits < fmt.patterns)
    (h : fmt.decode bits = .finite s m e) :
    bits = fmt.signBit s + fmt.magnitude m e ∧
      fmt.magnitude m e < fmt.topExponent * twoPow fmt.fraction ∧ (0 < m → fmt.Has m e) := by
  have eq := bits_eq lt
  have pos : 0 < twoPow fmt.fraction := Nat.pow_pos (by decide)
  have fraction : bits % twoPow fmt.fraction < twoPow fmt.fraction := Nat.mod_lt _ pos
  have field : bits / twoPow fmt.fraction % twoPow fmt.exponent < twoPow fmt.exponent :=
    Nat.mod_lt _ (Nat.pow_pos (by decide))
  have double : 2 ^ (fmt.fraction + 1) = 2 * twoPow fmt.fraction := by
    rw [Nat.pow_succ, Nat.mul_comm]
    rfl
  simp only [decode] at h
  generalize bits / twoPow fmt.fraction % twoPow fmt.exponent = k at *
  generalize bits % twoPow fmt.fraction = r at *
  split at h
  · split at h <;> cases h
  · next top =>
    have below : k < fmt.topExponent := by
      have : fmt.topExponent = twoPow fmt.exponent - 1 := rfl
      omega
    split at h
    · next zero =>
      cases h
      have small : fmt.magnitude m fmt.leastExponent = m := if_pos fraction
      rw [small]
      refine ⟨by simpa [zero] using eq, fraction.trans_le (Nat.le_mul_of_pos_left _ (by omega)), ?_⟩
      intro hr
      exact ⟨hr, by omega, Int.le_refl _, fun lt => absurd lt (Int.lt_irrefl _)⟩
    · next nonzero =>
      cases h
      have large : fmt.magnitude (twoPow fmt.fraction + r) (fmt.leastExponent + k - 1) =
          k * twoPow fmt.fraction + r := by
        have exponent : (fmt.leastExponent + k - 1 - fmt.leastExponent).toNat = k - 1 := by omega
        rw [magnitude, if_neg (by omega), exponent]
        obtain ⟨n, rfl⟩ : ∃ n, k = n + 1 := ⟨k - 1, by omega⟩
        rw [Nat.add_sub_cancel]
        ring
      rw [large]
      refine ⟨by rw [← Nat.add_assoc]; exact eq, ?_, fun _ => ⟨by omega, by omega, by omega, fun _ => ?_⟩⟩
      · calc k * twoPow fmt.fraction + r < (k + 1) * twoPow fmt.fraction := by
              rw [Nat.add_mul, Nat.one_mul]
              omega
          _ ≤ _ := Nat.mul_le_mul_right _ below
      · exact Nat.le_add_right _ _

theorem bits_of_decode_infinite {bits : Nat} {s : Bool} (lt : bits < fmt.patterns)
    (h : fmt.decode bits = .infinite s) : bits = fmt.infinity s := by
  have eq := bits_eq lt
  simp only [decode] at h
  split at h
  · next top =>
    split at h
    · next zero =>
      cases h
      rw [top, zero] at eq
      exact eq
    · cases h
  · split at h <;> cases h

/-- Numbers are far from the orders of magnitude that are told apart by their digits alone. -/
theorem rounds_bounds {x : ℚ} (std : fmt.Standard) (has : fmt.Has m e) (rounds : fmt.Rounds m e x)
    (finite : fmt.magnitude m e < fmt.topExponent * twoPow fmt.fraction) :
    (10 : ℚ) ^ (-400 : ℤ) ≤ x ∧ x < 10 ^ (400 : ℤ) := by
  obtain ⟨bits, least, top⟩ := std.bounds
  have pos : ∀ k : Int, (0 : ℚ) < 2 ^ k := fun k => zpow_pos (by norm_num) k
  have half : (2 : ℚ) ^ e = 2 * 2 ^ (e - 1) := by
    rw [← zpow_one_add₀ two_ne_zero]
    congr 1
    omega
  have quarter : (2 : ℚ) ^ (e - 1) = 2 * 2 ^ (e - 2) := by
    rw [← zpow_one_add₀ two_ne_zero]
    congr 1
    omega
  have large : (2 : ℚ) ^ (1300 : ℤ) ≤ 10 ^ (400 : ℤ) := by
    rw [show (1300 : ℤ) = 13 * 100 by rfl, show (400 : ℤ) = 4 * 100 by rfl, zpow_mul, zpow_mul]
    exact zpow_le_zpow_left₀ (by norm_num) (by norm_num) (by norm_num)
  have e_le : e ≤ 973 := by
    by_contra gt
    have normal := has.full (by omega)
    rw [magnitude, if_neg (show ¬ m < twoPow fmt.fraction from Nat.not_lt.mpr normal)] at finite
    have : (e - fmt.leastExponent).toNat * twoPow fmt.fraction < fmt.topExponent * twoPow fmt.fraction := by
      omega
    have := Nat.lt_of_mul_lt_mul_right this
    omega
  constructor
  · have one : (1 : ℚ) ≤ m := by exact_mod_cast has.pos
    have low : (2 : ℚ) ^ (e - 1) ≤ x := by
      have := rounds.low
      have := mul_le_mul_of_nonneg_right one (pos e).le
      split at * <;> linarith [pos (e - 2)]
    refine le_trans ?_ low
    calc (10 : ℚ) ^ (-400 : ℤ) ≤ 2 ^ (-1300 : ℤ) := by
          rw [zpow_neg, zpow_neg]
          exact inv_anti₀ (pos 1300) large
      _ ≤ _ := zpow_le_zpow_right₀ (by norm_num) (by have := has.least; omega)
  · have small : (m : ℚ) < 2 ^ (53 : ℤ) := by
      have : m < 2 ^ 53 := has.small.trans_le (Nat.pow_le_pow_right (by decide) (by omega))
      exact_mod_cast this
    calc x ≤ m * 2 ^ e + 2 ^ (e - 1) := rounds.high
      _ ≤ 2 ^ (53 : ℤ) * 2 ^ e + 2 ^ (53 : ℤ) * 2 ^ e := by
          have := mul_le_mul_of_nonneg_right small.le (pos e).le
          have one : (1 : ℚ) ≤ 2 ^ (53 : ℤ) := by norm_num
          have := mul_le_mul_of_nonneg_right one (pos e).le
          linarith [pos (e - 1)]
      _ = 2 ^ (54 + e) := by
          rw [← two_mul, ← mul_assoc, zpow_add₀ two_ne_zero]
          norm_num
      _ < 2 ^ (1300 : ℤ) := zpow_lt_zpow_right₀ (by norm_num) (by omega)
      _ ≤ _ := large

end Format

namespace Literal

variable {fmt : Format} {m : Nat} {e : Int} {s : Bool}

theorem toBits_finite {d : Decimal} (std : fmt.Standard) (has : fmt.Has m e)
    (rounds : fmt.Rounds m e d.value)
    (finite : fmt.magnitude m e < fmt.topExponent * twoPow fmt.fraction) :
    (Literal.finite s d).toBits fmt = fmt.signBit s + fmt.magnitude m e := by
  have power := isPower_powerOfTen d.exponent
  obtain ⟨low, high⟩ := Format.rounds_bounds std has rounds finite
  have nonzero : d.digits ≠ 0 := by
    intro zero
    rw [Decimal.value, zero, Nat.cast_zero, zero_mul] at low
    exact absurd low (by norm_num)
  have pos : (0 : ℚ) < d.digits := by exact_mod_cast Nat.pos_of_ne_zero nonzero
  have count := digitCount_spec nonzero
  have count_pos : 0 < digitCount d.digits := Nat.length_toDigits_pos
  have ten : (10 : ℚ) ≠ 0 := by norm_num
  have scale : (0 : ℚ) < 10 ^ d.exponent := zpow_pos (by norm_num) _
  obtain ⟨n, hn⟩ : ∃ n, digitCount d.digits = n + 1 := ⟨digitCount d.digits - 1, by omega⟩
  rw [hn, Nat.add_sub_cancel] at count
  have order_low : ¬ (digitCount d.digits : Int) + d.exponent < -400 := by
    intro lt
    have few : (d.digits : ℚ) < 10 ^ (n + 1) := by exact_mod_cast count.2
    have : d.value < 10 ^ (-400 : ℤ) := calc
      d.value < 10 ^ (n + 1) * 10 ^ d.exponent := mul_lt_mul_of_pos_right few scale
      _ = 10 ^ (((n + 1 : Nat) : Int) + d.exponent) := by rw [zpow_add₀ ten, zpow_natCast]
      _ ≤ _ := zpow_le_zpow_right₀ (by norm_num) (by omega)
    linarith
  have order_high : ¬ 400 < (digitCount d.digits : Int) + d.exponent := by
    intro lt
    have many : (10 : ℚ) ^ n ≤ d.digits := by exact_mod_cast count.1
    have : (10 : ℚ) ^ (400 : ℤ) ≤ d.value := calc
      (10 : ℚ) ^ (400 : ℤ) ≤ 10 ^ ((n : Int) + d.exponent) :=
        zpow_le_zpow_right₀ (by norm_num) (by omega)
      _ = 10 ^ n * 10 ^ d.exponent := by rw [zpow_add₀ ten, zpow_natCast]
      _ ≤ d.value := mul_le_mul_of_nonneg_right many scale.le
    linarith
  have quotient : ((d.digits * (powerOfTen d.exponent).1 : Nat) : ℚ) / (powerOfTen d.exponent).2 = d.value := by
    rw [Nat.cast_mul, mul_div_assoc, power.value, Decimal.value]
    norm_num
  simp only [toBits]
  rw [if_neg (not_or.mpr ⟨nonzero, order_low⟩), if_neg order_high]
  exact Format.roundRatio_eq has (Nat.mul_ne_zero nonzero power.up.ne') power.down.ne'
    (quotient ▸ rounds) finite

theorem read?_of_decimal? {text : List Char} {d : Decimal} (h : decimal? text = some d) (s : Bool) :
    read? (if s then '-' :: text else text) = some (.finite s d) := by
  cases s with
  | true => simp [read?, unsigned?, h]
  | false =>
    rw [if_neg (by decide), read?]
    · simp [unsigned?, h]
    · rintro rest rfl
      cases h
    · rintro rest rfl
      cases h

end Literal

theorem Layout.render_finite {fmt : Format} {bits m : Nat} {e : Int} {s : Bool}
    (h : fmt.decode bits = .finite s m e) :
    ∃ d text, (d = if m = 0 then ⟨0, 0⟩ else shortestDecimal fmt m e) ∧
      (text = exponential d ∨ text = source.positional d) ∧
      (source.render fmt bits).toList = if s then '-' :: text.toList else text.toList := by
  have sign (text : String) :
      (if s then "-" ++ text else text).toList = if s then '-' :: text.toList else text.toList := by
    cases s with
    | true => exact String.toList_append
    | false => rfl
  simp only [render, h]
  generalize (if m = 0 then (⟨0, 0⟩ : Decimal) else shortestDecimal fmt m e) = d
  refine ⟨d, _, rfl, ?_, sign _⟩
  split
  · exact .inl rfl
  · exact .inr rfl

/-- What is written for a pattern is read as the same pattern, up to the sign and payload of a NaN. -/
theorem toBits_read?_render {fmt : Format} {bits : Nat} (std : fmt.Standard) (lt : bits < fmt.patterns) :
    ∃ l, Literal.read? (Layout.source.render fmt bits).toList = some l ∧
      l.toBits fmt = fmt.canonical bits := by
  cases h : fmt.decode bits with
  | nan s payload =>
    refine ⟨.nan false, ?_, by simp [Format.canonical, h, Literal.toBits]⟩
    simp only [Layout.render, h]
    decide
  | infinite s =>
    refine ⟨.infinite s, ?_, ?_⟩
    · simp only [Layout.render, h]
      cases s <;> decide
    · simp [Format.canonical, h, Literal.toBits, ← Format.bits_of_decode_infinite lt h]
  | finite s m e =>
    obtain ⟨eq, finite, has⟩ := Format.bits_of_decode lt h
    have canonical : fmt.canonical bits = bits := by simp [Format.canonical, h]
    obtain ⟨d, text, hd, style, written⟩ := Layout.render_finite h
    obtain ⟨d', read, value⟩ : ∃ d', Literal.decimal? text.toList = some d' ∧ d'.value = d.value := by
      rcases style with rfl | rfl
      · exact Layout.decimal?_exponential d
      · exact Layout.decimal?_positional d
    refine ⟨.finite s d', written ▸ Literal.read?_of_decimal? read s, ?_⟩
    rw [canonical]
    by_cases zero : m = 0
    · rw [if_pos zero] at hd
      have none : d'.digits = 0 := by
        rw [hd, Decimal.value, Decimal.value, Nat.cast_zero, zero_mul, mul_eq_zero] at value
        rcases value with value | value
        · exact_mod_cast value
        · exact absurd value (zpow_ne_zero _ (by norm_num))
      have pos : 0 < twoPow fmt.fraction := Nat.pow_pos (by decide)
      have magnitude : fmt.magnitude m e = 0 := by rw [zero, Format.magnitude, if_pos pos]
      rw [eq, magnitude]
      simp [Literal.toBits, none, Format.zero]
    · rw [if_neg zero] at hd
      have has := has (Nat.pos_of_ne_zero zero)
      have rounds := rounds_shortestDecimal has std.bounds.1
      rw [← hd, ← value] at rounds
      rw [eq]
      exact Literal.toBits_finite std has rounds finite

theorem Format.canonical_lt {fmt : Format} {bits : Nat} (std : fmt.Standard) (lt : bits < fmt.patterns) :
    fmt.canonical bits < fmt.patterns := by
  unfold canonical
  split
  · rcases std with rfl | rfl <;> decide
  · exact lt

theorem Layout.render_canonical {fmt : Format} {bits : Nat} (std : fmt.Standard) :
    source.render fmt (fmt.canonical bits) = source.render fmt bits := by
  unfold Format.canonical
  split
  · next decoded =>
    have one : source.render fmt (fmt.quietNaN false 0) = "NaN" := by
      rcases std with rfl | rfl <;> decide
    rw [one]
    simp only [render, decoded]
  · rfl

theorem Layout.render_ne_nil {fmt : Format} {bits : Nat} (std : fmt.Standard) (lt : bits < fmt.patterns) :
    (source.render fmt bits).toList ≠ [] := by
  obtain ⟨l, read, -⟩ := toBits_read?_render std lt
  intro empty
  rw [empty] at read
  cases read

/-! ## Characters -/

def isNumeral (c : Char) : Bool :=
  c.isAlphanum || c == '.' || c == '-'

theorem isNumeral_of_isDigit {c : Char} (h : c.isDigit = true) : isNumeral c = true := by
  simp [isNumeral, Char.isAlphanum, h]

theorem isNumeral_of_mem_toString {i : Int} {c : Char} (h : c ∈ (toString i).toList) :
    isNumeral c = true := by
  cases i with
  | ofNat n =>
    have text : (toString (Int.ofNat n)).toList = Nat.toDigits 10 n := toList_toString n
    exact isNumeral_of_isDigit (isDigit_of_mem_toDigits (text ▸ h))
  | negSucc n =>
    rw [toList_toString_negSucc] at h
    rcases List.mem_cons.mp h with rfl | h
    · decide
    · exact isNumeral_of_isDigit (isDigit_of_mem_toDigits h)

theorem Layout.isNumeral_of_mem_positional {d : Decimal} {c : Char}
    (h : c ∈ (source.positional d).toList) : isNumeral c = true := by
  have digits {c : Char} (h : c ∈ Nat.toDigits 10 d.digits) : isNumeral c = true :=
    isNumeral_of_isDigit (isDigit_of_mem_toDigits h)
  have zero : isNumeral '0' = true := by decide
  have point : isNumeral '.' = true := by decide
  rw [positional_toList] at h
  split at h
  · simp only [List.mem_append, List.mem_cons, List.mem_replicate, List.not_mem_nil, or_false] at h
    rcases h with (h | ⟨-, rfl⟩) | rfl | rfl
    exacts [digits h, zero, point, zero]
  · split at h
    · simp only [List.mem_append, List.mem_cons, List.not_mem_nil, or_false] at h
      rcases h with h | rfl | h
      exacts [digits (List.mem_of_mem_take h), point, digits (List.mem_of_mem_drop h)]
    · simp only [List.mem_append, List.mem_cons, List.mem_replicate, List.not_mem_nil, or_false] at h
      rcases h with rfl | rfl | ⟨-, rfl⟩ | h
      exacts [zero, point, zero, digits h]

theorem Layout.isNumeral_of_mem_exponential {d : Decimal} {c : Char}
    (h : c ∈ (exponential d).toList) : isNumeral c = true := by
  cases hd : Nat.toDigits 10 d.digits with
  | nil => exact absurd hd Nat.toDigits_ne_nil
  | cons x rest =>
    have digits {c : Char} (h : c ∈ x :: rest) : isNumeral c = true :=
      isNumeral_of_isDigit (isDigit_of_mem_toDigits (hd ▸ h))
    rw [exponential_toList hd] at h
    split at h
    · simp only [List.mem_append, List.mem_cons, List.not_mem_nil, or_false] at h
      rcases h with rfl | rfl | h
      exacts [digits List.mem_cons_self, by decide, isNumeral_of_mem_toString h]
    · simp only [List.mem_append, List.mem_cons, List.not_mem_nil, or_false] at h
      rcases h with rfl | rfl | h | rfl | h
      exacts [digits List.mem_cons_self, by decide, digits (List.mem_cons_of_mem _ h), by decide,
        isNumeral_of_mem_toString h]

theorem Layout.isNumeral_of_mem_render {fmt : Format} {bits : Nat} {c : Char}
    (h : c ∈ (source.render fmt bits).toList) : isNumeral c = true := by
  have literal {text : List Char} (all : text.all isNumeral = true) (h : c ∈ text) :
      isNumeral c = true := List.all_eq_true.mp all c h
  cases decoded : fmt.decode bits with
  | nan s payload =>
    simp only [render, decoded] at h
    exact literal (by decide) h
  | infinite s =>
    simp only [render, decoded] at h
    cases s with
    | true => exact literal (by decide) h
    | false => exact literal (by decide) h
  | finite s m e =>
    obtain ⟨d, text, -, style, written⟩ := render_finite decoded
    have body {c : Char} (h : c ∈ text.toList) : isNumeral c = true := by
      rcases style with rfl | rfl
      exacts [isNumeral_of_mem_exponential h, isNumeral_of_mem_positional h]
    rw [written] at h
    cases s with
    | true =>
      rcases List.mem_cons.mp h with rfl | h
      exacts [by decide, body h]
    | false => exact body h

end CheckpointRestart.Number
