import ProtoSchema.Number.Binary64

/-!
# Shortest decimals

The decimal with the fewest digits that reads back as a given number. For one to seventeen digits
the two neighbours of the number on that grid of decimals are read back; the first grid with a hit
wins, and of two hits the nearer one. Reading back is the test itself, so the outcome needs no
analysis of the interval of decimals that round to the number.
-/

namespace ProtoSchema

/-- A natural number times a power of ten. -/
structure Decimal where
  digits : Nat
  exponent : Int
  deriving DecidableEq, Repr

/-- Which of two equally near decimals is taken. -/
inductive Tie where
  | up
  | even
  deriving DecidableEq, Repr

namespace Decimal

/-- The number nearest to a decimal. -/
def round (negative : Bool) (d : Decimal) : Binary64 :=
  Binary64.ofDecimal negative d.digits d.exponent

/-- The same decimal without zeros at the end of its digits. -/
def normalize (d : Decimal) : Decimal :=
  if h : d.digits = 0 then ⟨0, 0⟩
  else if d.digits % 10 = 0 then normalize ⟨d.digits / 10, d.exponent + 1⟩
  else d
termination_by d.digits
decreasing_by exact Nat.div_lt_self (Nat.pos_of_ne_zero h) (by decide)

end Decimal

namespace Binary64

/-- The power of ten that makes every positive number a whole one of many digits. -/
def decimalShift : Nat := 400

/-- The absolute value times ten to the `decimalShift`, as a numerator over 2¹⁰⁷⁴. -/
def shifted (x : Binary64) : Nat := x.units * Nat.pow 10 decimalShift

/-- The neighbours of a number among the decimals of so many digits: the one that reads back, the
nearer one if both do. -/
def hit? (tie : Tie) (x : Binary64) (count : Nat) : Option Decimal :=
  let dropped := (Nat.toDigits 10 (x.shifted / unitsPerOne)).length - count
  -- One place of the grid, in the units of `shifted`.
  let step := unitsPerOne * Nat.pow 10 dropped
  let below := x.shifted / step
  let twice := 2 * (x.shifted % step)
  let exponent : Int := dropped - decimalShift
  let lower : Decimal := ⟨below, exponent⟩
  let upper : Decimal := ⟨below + 1, exponent⟩
  let upperIsNearer : Bool :=
    match tie with
    | .up => step ≤ twice
    | .even => step < twice ∨ (twice = step ∧ below % 2 = 1)
  -- The neighbour that is farther off counts only if the other one does not read back.
  if lower.round x.negative = x then
    if upper.round x.negative = x ∧ upperIsNearer then some upper else some lower
  else
    if upper.round x.negative = x then some upper else none

/-- A finite number with all its decimal digits. -/
def exactDecimal (x : Binary64) : Decimal :=
  ⟨x.units * Nat.pow 5 1074, -1074⟩

/-- The shortest decimal that reads back as a finite number. -/
def shortest (tie : Tie) (x : Binary64) : Decimal :=
  (((List.range' 1 17).findSome? (x.hit? tie)).getD x.exactDecimal).normalize

end Binary64

end ProtoSchema
