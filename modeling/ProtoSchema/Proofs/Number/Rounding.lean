import Mathlib.Algebra.Group.Nat.Defs
import ProtoSchema.Number.Binary64

/-!
# Rounding ratios and decimals

Rounding depends on the ratio alone, not on how it is written as a fraction; a finite number is what
its own units round to; and the bounds put on an exponent of ten never show in the result.
-/

namespace ProtoSchema.Binary64

/-! ### Binary digits -/

theorem log2_mul_two_pow {n : Nat} (nonzero : n ≠ 0) (k : Nat) :
    (n * Nat.pow 2 k).log2 = n.log2 + k := by
  rw [Nat.pow_eq]
  have positive : 0 < 2 ^ k := Nat.two_pow_pos k
  rw [Nat.log2_eq_iff (Nat.mul_ne_zero nonzero (Nat.ne_of_gt positive))]
  constructor
  · rw [Nat.pow_add]
    exact Nat.mul_le_mul_right _ (Nat.log2_self_le nonzero)
  · rw [Nat.add_right_comm, Nat.pow_add]
    exact Nat.mul_lt_mul_of_pos_right Nat.lt_log2_self positive

/-! ### Ratios -/

theorem unitsPerOne_pos : 0 < unitsPerOne := by decide +kernel

/-- A common factor of numerator and denominator makes no difference. -/
theorem roundRatio_mul_mul {factor : Nat} (pos : 0 < factor) (numerator denominator : Nat) :
    roundRatio (factor * numerator) (factor * denominator) = roundRatio numerator denominator := by
  have whole (n step : Nat) : factor * n / (factor * step) = n / step :=
    Nat.mul_div_mul_left n step pos
  have cutOff (n step : Nat) : 2 * (factor * n % (factor * step)) = factor * (2 * (n % step)) := by
    rw [Nat.mul_mod_mul_left, Nat.mul_left_comm]
  have same (m n : Nat) : factor * m = factor * n ↔ m = n := Nat.mul_right_inj (Nat.ne_of_gt pos)
  unfold roundRatio
  simp only [Nat.mul_assoc factor, whole, cutOff, same, Nat.mul_lt_mul_left pos]

/-- Equal ratios are rounded to the same magnitude. -/
theorem roundRatio_eq_of_cross {a b c d : Nat} (b_pos : 0 < b) (d_pos : 0 < d)
    (cross : a * d = c * b) : roundRatio a b = roundRatio c d := by
  calc roundRatio a b
      = roundRatio (d * a) (d * b) := (roundRatio_mul_mul d_pos a b).symm
    _ = roundRatio (b * c) (b * d) := by rw [Nat.mul_comm d a, cross, Nat.mul_comm c, Nat.mul_comm d]
    _ = roundRatio c d := roundRatio_mul_mul b_pos c d

/-- Less than half of the smallest number is rounded to zero. -/
theorem roundRatio_eq_zero {numerator denominator : Nat}
    (small : 2 * (numerator * unitsPerOne) < denominator) : roundRatio numerator denominator = 0 := by
  have whole : numerator * unitsPerOne / denominator = 0 := Nat.div_eq_of_lt (by omega)
  have cutOff : numerator * unitsPerOne % denominator = numerator * unitsPerOne :=
    Nat.mod_eq_of_lt (by omega)
  have step : denominator * Nat.pow 2 0 = denominator := Nat.mul_one _
  have log : Nat.log2 0 - 52 = 0 := by decide
  unfold roundRatio
  simp only [whole, log, step, cutOff]
  rw [if_neg (by omega), Nat.zero_mul]

/-- What has many binary digits in front of the point is rounded to infinity or beyond. -/
theorem infinity_le_roundRatio {numerator bits : Nat} (many : 1026 ≤ bits)
    (great : Nat.pow 2 bits ≤ numerator) : infinity ≤ roundRatio numerator 1 := by
  have nonzero : numerator ≠ 0 := Nat.ne_of_gt (Nat.lt_of_lt_of_le (Nat.two_pow_pos bits) great)
  have atLeast : bits ≤ numerator.log2 := (Nat.le_log2 nonzero).mpr great
  obtain ⟨k, power, size⟩ : ∃ k, unitsPerOne = Nat.pow 2 k ∧ k = 1074 :=
    ⟨1074, by decide +kernel, rfl⟩
  have scaled : (numerator * unitsPerOne).log2 = numerator.log2 + k := by
    rw [power, log2_mul_two_pow nonzero]
  -- All binary digits but the first 53 go into the scale, and that alone is enough for infinity.
  have scale : 0x7ff * leadingBit ≤ ((numerator * unitsPerOne).log2 - 52) * leadingBit :=
    Nat.mul_le_mul_right _ (by omega)
  unfold roundRatio
  simp only [Nat.div_one, infinity]
  omega

/-! ### Finite numbers -/

theorem significand_lt (x : Binary64) : x.significand < 2 * leadingBit := by
  have positive : 0 < leadingBit := by decide
  have := Nat.mod_lt x.magnitude positive
  unfold significand
  split <;> omega

theorem scale_eq_zero_or (x : Binary64) : x.scale = 0 ∨ leadingBit ≤ x.significand := by
  unfold scale significand
  split
  next small => simp [Nat.div_eq_of_lt small]
  next => exact .inr (Nat.le_add_right _ _)

/-- The magnitudes count the numbers: a step of the scale is worth as many as share an exponent. -/
theorem scale_mul_add_significand (x : Binary64) :
    x.scale * leadingBit + x.significand = x.magnitude := by
  have parts := Nat.div_add_mod x.magnitude leadingBit
  have positive : 0 < leadingBit := by decide
  unfold scale significand
  split
  next small => simp [Nat.div_eq_of_lt small]
  next large =>
    have quotient : 1 ≤ x.magnitude / leadingBit := by
      rw [Nat.le_div_iff_mul_le positive]
      omega
    rw [Nat.sub_mul, Nat.mul_comm]
    have : leadingBit ≤ leadingBit * (x.magnitude / leadingBit) := Nat.le_mul_of_pos_right _ quotient
    omega

/-- The units of a number have 53 binary digits in front of those that its scale adds. -/
theorem log2_units (x : Binary64) : x.units.log2 - 52 = x.scale := by
  have upper : x.significand < 2 ^ 53 := significand_lt x
  unfold units
  by_cases zero : x.significand = 0
  · have unscaled := (scale_eq_zero_or x).resolve_right (by rw [zero]; decide)
    simp [zero, unscaled]
  · have log : (x.significand * Nat.pow 2 x.scale).log2 = x.significand.log2 + x.scale :=
      log2_mul_two_pow zero _
    have atMost : x.significand.log2 < 53 := (Nat.log2_lt zero).mpr upper
    rcases scale_eq_zero_or x with unscaled | full
    · omega
    · have atLeast : 52 ≤ x.significand.log2 := (Nat.le_log2 zero).mpr full
      omega

/-- A number is as large as its units, with nothing cut off. -/
theorem roundRatio_units (x : Binary64) : roundRatio x.units unitsPerOne = x.magnitude := by
  have whole : x.units * unitsPerOne / unitsPerOne = x.units :=
    Nat.mul_div_cancel _ unitsPerOne_pos
  have step : 0 < unitsPerOne * Nat.pow 2 x.scale :=
    Nat.mul_pos unitsPerOne_pos (Nat.two_pow_pos _)
  have scaled : x.units * unitsPerOne = x.significand * (unitsPerOne * Nat.pow 2 x.scale) := by
    rw [units, Nat.mul_assoc, Nat.mul_comm unitsPerOne]
  have quotient : x.units * unitsPerOne / (unitsPerOne * Nat.pow 2 x.scale) = x.significand := by
    rw [scaled, Nat.mul_div_cancel _ step]
  have cutOff : x.units * unitsPerOne % (unitsPerOne * Nat.pow 2 x.scale) = 0 := by
    rw [scaled, Nat.mul_mod_left]
  unfold roundRatio
  simp only [whole, log2_units, quotient, cutOff]
  -- Nothing is cut off, so nothing is rounded up.
  rw [if_neg (by omega), scale_mul_add_significand]

/-- A finite number is the one nearest to itself. -/
theorem ofRatio_units {x : Binary64} (finite : x.isFinite = true) :
    ofRatio x.negative x.units unitsPerOne = x := by
  have small : x.magnitude < infinity := of_decide_eq_true finite
  obtain ⟨negative, magnitude, lt⟩ := x
  simp only [ofRatio, mk.injEq, true_and]
  rw [roundRatio_units]
  exact Nat.min_eq_left (Nat.le_of_lt small)

/-! ### Decimals -/

private theorem ofRatio_eq_of_min_eq {a b c d : Nat} (negative : Bool)
    (same : min (roundRatio a b) infinity = min (roundRatio c d) infinity) :
    ofRatio negative a b = ofRatio negative c d := by
  unfold ofRatio
  simp only [same]

theorem ofRatio_eq_of_roundRatio_eq {a b c d : Nat} {negative : Bool}
    (same : roundRatio a b = roundRatio c d) : ofRatio negative a b = ofRatio negative c d :=
  ofRatio_eq_of_min_eq negative (congrArg (min · infinity) same)

private theorem ofRatio_eq_of_small {a b c d : Nat} (negative : Bool)
    (left : 2 * (a * unitsPerOne) < b) (right : 2 * (c * unitsPerOne) < d) :
    ofRatio negative a b = ofRatio negative c d := by
  apply ofRatio_eq_of_min_eq
  rw [roundRatio_eq_zero left, roundRatio_eq_zero right]

private theorem ofRatio_eq_of_great {a b : Nat} (negative : Bool)
    (left : infinity ≤ roundRatio a 1) (right : infinity ≤ roundRatio b 1) :
    ofRatio negative a 1 = ofRatio negative b 1 := by
  apply ofRatio_eq_of_min_eq
  rw [Nat.min_eq_right left, Nat.min_eq_right right]

/-- A significand so many places behind the point is less than half of the smallest number. -/
private theorem double_lt_ten_pow {significand tens places : Nat}
    (units : 4 * unitsPerOne ≤ Nat.pow 10 tens) (far : tens + significand.log2 ≤ places) :
    2 * (significand * unitsPerOne) < 10 ^ places := by
  have bits : significand < 2 ^ (significand.log2 + 1) := Nat.lt_log2_self
  have powers : 2 ^ significand.log2 ≤ 10 ^ significand.log2 := Nat.pow_le_pow_left (by decide) _
  calc 2 * (significand * unitsPerOne)
      < 2 * (2 ^ (significand.log2 + 1) * unitsPerOne) :=
        Nat.mul_lt_mul_of_pos_left (Nat.mul_lt_mul_of_pos_right bits unitsPerOne_pos) (by decide)
    _ = 4 * unitsPerOne * 2 ^ significand.log2 := by grind
    _ ≤ 10 ^ tens * 10 ^ significand.log2 := Nat.mul_le_mul units powers
    _ = 10 ^ (tens + significand.log2) := (Nat.pow_add ..).symm
    _ ≤ 10 ^ places := Nat.pow_le_pow_right (by decide) far

/-- A number so many places in front of the point is beyond the finite ones. -/
private theorem infinity_le_roundRatio_ten_pow {significand bits tens places : Nat}
    (nonzero : significand ≠ 0) (many : 1026 ≤ bits) (base : Nat.pow 2 bits ≤ Nat.pow 10 tens)
    (far : tens ≤ places) : infinity ≤ roundRatio (significand * 10 ^ places) 1 := by
  apply infinity_le_roundRatio many
  calc Nat.pow 2 bits ≤ 10 ^ tens := base
    _ ≤ 10 ^ places := Nat.pow_le_pow_right (by decide) far
    _ ≤ significand * 10 ^ places := Nat.le_mul_of_pos_left _ (Nat.pos_of_ne_zero nonzero)

/-- The bounds put on an exponent of ten never show. -/
theorem ofDecimal_eq (negative : Bool) (significand : Nat) (exponent : Int) :
    ofDecimal negative significand exponent =
      ofRatio negative (significand * 10 ^ exponent.toNat) (10 ^ (-exponent).toNat) := by
  unfold ofDecimal
  simp only [Nat.pow_eq]
  -- Where a bound takes effect the number is too small to count, or beyond the finite ones, with the
  -- bound as without it. Zero is too small at any exponent.
  by_cases zero : significand = 0
  · have small (power places : Nat) : 2 * (significand * power * unitsPerOne) < 10 ^ places := by
      rw [zero, Nat.zero_mul, Nat.zero_mul, Nat.mul_zero]
      exact Nat.pow_pos (by decide)
    exact ofRatio_eq_of_small negative (small _ _) (small _ _)
  by_cases low : exponent < -(401 + significand.log2 : Nat)
  · -- With the bound and without, the ratio is too small to count.
    have clamped : clampExponent significand exponent = -(401 + significand.log2 : Nat) := by
      unfold clampExponent
      omega
    have noPower : exponent.toNat = 0 := by omega
    have noPower' : (-(401 + significand.log2 : Nat) : Int).toNat = 0 := by omega
    have units : 4 * unitsPerOne ≤ Nat.pow 10 401 := by decide +kernel
    rw [clamped, noPower, noPower', Nat.pow_zero, Nat.mul_one]
    apply ofRatio_eq_of_small negative
    · exact double_lt_ten_pow units (by omega)
    · exact double_lt_ten_pow units (by omega)
  by_cases high : 400 < exponent
  · have clamped : 400 ≤ clampExponent significand exponent := by
      unfold clampExponent
      omega
    have whole : (-exponent).toNat = 0 := by omega
    have whole' : (-clampExponent significand exponent).toNat = 0 := by omega
    obtain ⟨bits, many, base⟩ : ∃ bits, 1026 ≤ bits ∧ Nat.pow 2 bits ≤ Nat.pow 10 400 :=
      ⟨1026, by decide, by decide +kernel⟩
    rw [whole, whole', Nat.pow_zero]
    apply ofRatio_eq_of_great negative
    · exact infinity_le_roundRatio_ten_pow zero many base (by omega)
    · exact infinity_le_roundRatio_ten_pow zero many base (by omega)
  · have clamped : clampExponent significand exponent = exponent := by
      unfold clampExponent
      omega
    rw [clamped]

/-- Zeros at the end of a significand are worth as much as a greater exponent. -/
theorem ofDecimal_mul_ten_pow (negative : Bool) (significand : Nat) (exponent : Int) (places : Nat) :
    ofDecimal negative (significand * 10 ^ places) exponent =
      ofDecimal negative significand (exponent + places) := by
  rw [ofDecimal_eq, ofDecimal_eq]
  have positive (n : Nat) : 0 < 10 ^ n := Nat.pow_pos (by decide)
  apply ofRatio_eq_of_roundRatio_eq
  apply roundRatio_eq_of_cross (positive _) (positive _)
  simp only [Nat.mul_assoc, ← Nat.pow_add]
  congr 2
  omega

end ProtoSchema.Binary64
