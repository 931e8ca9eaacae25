/-!
# Binary64

The numbers of IEEE 754 binary64 as patterns of bits, rounding to the nearest of them, and reading
one from a decimal. A magnitude is the pattern without its sign bit: magnitudes count the
non-negative finite numbers in order, then come infinity and the patterns that are not a number.

Every finite number is a whole multiple of 2⁻¹⁰⁷⁴, which makes rounding a matter of natural numbers:
a ratio in that unit has a whole part, the whole part has 53 binary digits after as many halvings as
it needs, and what the halvings cut off decides between that number and the next.
-/

namespace ProtoSchema

/-- A pattern of 64 bits: a sign and 63 bits of magnitude. -/
structure Binary64 where
  negative : Bool
  magnitude : Nat
  magnitude_lt : magnitude < Nat.pow 2 63
  deriving DecidableEq, Repr

namespace Binary64

/-- The weight of the leading bit of a significand of full length; so many magnitudes share an
exponent. -/
def leadingBit : Nat := Nat.pow 2 52

/-- How many units of 2⁻¹⁰⁷⁴ make one. -/
def unitsPerOne : Nat := Nat.pow 2 1074

/-- The magnitude of infinity. -/
def infinity : Nat := 0x7ff * leadingBit

/-- Whether a pattern stands for a number. -/
def isFinite (x : Binary64) : Bool := x.magnitude < infinity

/-- Whether a pattern is not a number and not infinite. -/
def isNaN (x : Binary64) : Bool := infinity < x.magnitude

/-- The significant bits of a finite number, the leading one included. -/
def significand (x : Binary64) : Nat :=
  if x.magnitude < leadingBit then x.magnitude else leadingBit + x.magnitude % leadingBit

/-- How often the significand is doubled, from the unit 2⁻¹⁰⁷⁴ on. -/
def scale (x : Binary64) : Nat := x.magnitude / leadingBit - 1

/-- The absolute value of a finite number in units of 2⁻¹⁰⁷⁴. -/
def units (x : Binary64) : Nat := x.significand * Nat.pow 2 x.scale

/-- The magnitude nearest to a ratio, the even one when two are equally near; beyond the finite
numbers it goes on past infinity. -/
def roundRatio (numerator denominator : Nat) : Nat :=
  let scaled := numerator * unitsPerOne
  -- So many halvings leave a whole part of 53 binary digits, or fewer if none is needed.
  let scale := (scaled / denominator).log2 - 52
  let step := denominator * Nat.pow 2 scale
  let quotient := scaled / step
  let twice := 2 * (scaled % step)
  -- What was cut off is compared with one half.
  let up := step < twice ∨ (twice = step ∧ quotient % 2 = 1)
  scale * leadingBit + if up then quotient + 1 else quotient

/-- The number nearest to a ratio, or infinity when the ratio is too large. -/
def ofRatio (negative : Bool) (numerator denominator : Nat) : Binary64 where
  negative
  magnitude := min (roundRatio numerator denominator) infinity
  magnitude_lt := by exact Nat.lt_of_le_of_lt (Nat.min_le_right _ _) (by decide)

/-- The exponent of ten within the bounds outside of which a significand rounds to zero or to
infinity in any case. -/
def clampExponent (significand : Nat) (exponent : Int) : Int :=
  max (-(401 + significand.log2 : Nat)) (min 400 exponent)

/-- The number nearest to a significand times a power of ten. -/
def ofDecimal (negative : Bool) (significand : Nat) (exponent : Int) : Binary64 :=
  let exponent := clampExponent significand exponent
  ofRatio negative (significand * Nat.pow 10 exponent.toNat) (Nat.pow 10 (-exponent).toNat)

/-- The number nearest to an integer. -/
def ofInt (n : Int) : Binary64 :=
  ofRatio (n < 0) n.natAbs 1

/-- The pattern as one natural number below 2⁶⁴. -/
def bits (x : Binary64) : Nat :=
  (if x.negative then Nat.pow 2 63 else 0) + x.magnitude

/-- The pattern that a natural number stands for, its 64 lowest bits. -/
def ofBits (bits : Nat) : Binary64 where
  negative := bits / Nat.pow 2 63 % 2 = 1
  magnitude := bits % Nat.pow 2 63
  magnitude_lt := Nat.mod_lt _ (by decide)

end Binary64

end ProtoSchema
