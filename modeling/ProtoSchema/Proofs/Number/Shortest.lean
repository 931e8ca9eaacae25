import ProtoSchema.Number.Shortest
import ProtoSchema.Proofs.Number.Rounding

/-!
# Shortest decimals read back

The shortest decimal of a finite number is rounded to that number: a decimal that is hit was read
back, and the exact one is the number itself.
-/

namespace ProtoSchema

namespace Decimal

private theorem ofDecimal_zero (negative : Bool) (e e' : Int) :
    Binary64.ofDecimal negative 0 e = Binary64.ofDecimal negative 0 e' := by
  have later (e : Int) (places : Nat) :
      Binary64.ofDecimal negative 0 e = Binary64.ofDecimal negative 0 (e + places) := by
    simpa using Binary64.ofDecimal_mul_ten_pow negative 0 e places
  rcases Int.le_total e e' with h | h
  · obtain ⟨places, rfl⟩ := Int.le.dest h
    exact later e places
  · obtain ⟨places, rfl⟩ := Int.le.dest h
    exact (later e' places).symm

/-- Without the zeros at its end a decimal is rounded to the same number. -/
theorem round_normalize (negative : Bool) (d : Decimal) :
    d.normalize.round negative = d.round negative := by
  fun_induction normalize d with
  | case1 d zero =>
    unfold round
    rw [zero]
    exact ofDecimal_zero negative _ _
  | case2 d nonzero divisible ih =>
    -- A zero is given up for one more in the exponent, which is worth the same.
    have digits : d.digits / 10 * 10 ^ 1 = d.digits := by omega
    have shifted := Binary64.ofDecimal_mul_ten_pow negative (d.digits / 10) d.exponent 1
    rw [digits] at shifted
    exact ih.trans shifted.symm
  | case3 => rfl

end Decimal

namespace Binary64

private theorem ofDecimal_five_pow (negative : Bool) (units k : Nat) :
    ofDecimal negative (units * Nat.pow 5 k) (-k) = ofRatio negative units (Nat.pow 2 k) := by
  have positive (base : Nat) (h : 0 < base) : 0 < base ^ k := Nat.pow_pos h
  have none : (-(k : Int)).toNat = 0 := by omega
  have all : (- -(k : Int)).toNat = k := by omega
  have ten : 5 ^ k * 2 ^ k = 10 ^ k := (Nat.mul_pow 5 2 k).symm
  rw [ofDecimal_eq, none, all, Nat.pow_zero, Nat.mul_one]
  apply ofRatio_eq_of_roundRatio_eq
  apply roundRatio_eq_of_cross (positive 10 (by decide)) (positive 2 (by decide))
  rw [Nat.pow_eq, Nat.mul_assoc, ten]

theorem round_exactDecimal {x : Binary64} (finite : x.isFinite = true) :
    x.exactDecimal.round x.negative = x := by
  -- The power is hidden in a variable, so that no step computes it.
  obtain ⟨k, exponent, five, two⟩ : ∃ k : Nat, (-1074 : Int) = -k ∧
      Nat.pow 5 1074 = Nat.pow 5 k ∧ unitsPerOne = Nat.pow 2 k :=
    ⟨1074, by decide +kernel, by decide +kernel, by decide +kernel⟩
  unfold Decimal.round exactDecimal
  rw [exponent, five, ofDecimal_five_pow, ← two, ofRatio_units finite]

/-- Of two neighbours only one that reads back is taken, whichever is nearer. -/
private theorem round_of_neighbour {x : Binary64} {lower upper d : Decimal} {nearer : Bool}
    (h : (if lower.round x.negative = x then
        if upper.round x.negative = x ∧ nearer then some upper else some lower
      else if upper.round x.negative = x then some upper else none) = some d) :
    d.round x.negative = x := by
  split at h
  next readsBack =>
    split at h
    next both =>
      cases h
      exact both.1
    next =>
      cases h
      exact readsBack
  next =>
    split at h
    next readsBack =>
      cases h
      exact readsBack
    next => cases h

/-- A decimal that is hit reads back. -/
theorem round_of_hit?_eq_some {tie : Tie} {x : Binary64} {count : Nat} {d : Decimal}
    (h : x.hit? tie count = some d) : d.round x.negative = x :=
  round_of_neighbour h

/-- The shortest decimal of a finite number reads back. -/
theorem round_shortest {x : Binary64} (finite : x.isFinite = true) (tie : Tie) :
    (x.shortest tie).round x.negative = x := by
  unfold shortest
  rw [Decimal.round_normalize]
  cases found : (List.range' 1 17).findSome? (x.hit? tie) with
  | none => exact round_exactDecimal finite
  | some d =>
    obtain ⟨count, _, hit⟩ := List.exists_of_findSome?_eq_some found
    exact round_of_hit?_eq_some hit

end Binary64

end ProtoSchema
