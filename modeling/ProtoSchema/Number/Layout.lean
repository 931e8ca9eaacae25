import ProtoSchema.Number.Shortest

/-!
# Layouts of floating-point numbers

How the digits of a shortest decimal are laid out: positionally, or with an exponent. A
`FloatLayout` holds what one notation decides; the notations themselves stand where they are used.
-/

namespace ProtoSchema

/-- The decisions of a notation for floating-point numbers. -/
structure FloatLayout where
  /-- Which of two equally near shortest decimals is taken. -/
  tie : Tie
  /-- The places of the decimal point, counted from before the first digit, that are written
  positionally; without bounds every number is. -/
  positional : Option (Int × Int)
  /-- Whether a whole number in positional notation ends in a point and a zero. -/
  wholeFraction : Bool
  /-- Whether an exponent that is not negative has a plus sign. -/
  plusSign : Bool
  deriving DecidableEq, Repr

namespace FloatLayout

/-- Digits with the decimal point at its place. -/
def positionalText (layout : FloatLayout) (digits : List Char) (point : Int) : List Char :=
  if point ≤ 0 then
    '0' :: '.' :: List.replicate (-point).toNat '0' ++ digits
  else if point < digits.length then
    digits.take point.toNat ++ '.' :: digits.drop point.toNat
  else
    digits ++ List.replicate (point.toNat - digits.length) '0' ++
      if layout.wholeFraction then ['.', '0'] else []

/-- Digits with the decimal point behind the first of them, and the exponent that makes up for
it. -/
def scientificText (layout : FloatLayout) (digits : List Char) (point : Int) : List Char :=
  let exponent := point - 1
  let fraction :=
    match digits.drop 1 with
    | [] => []
    | rest => '.' :: rest
  let sign := if exponent < 0 then ['-'] else if layout.plusSign then ['+'] else []
  digits.take 1 ++ fraction ++ 'e' :: sign ++ Nat.toDigits 10 exponent.natAbs

/-- A decimal without sign. -/
def decimalText (layout : FloatLayout) (d : Decimal) : List Char :=
  let digits := Nat.toDigits 10 d.digits
  let point := digits.length + d.exponent
  let isPositional :=
    match layout.positional with
    | none => true
    | some (least, greatest) => least ≤ point ∧ point ≤ greatest
  if isPositional then layout.positionalText digits point
  else layout.scientificText digits point

/-- A number in this notation; infinities and what is not a number have names. -/
def text (layout : FloatLayout) (x : Binary64) : List Char :=
  let sign := if x.negative then ['-'] else []
  if x.isFinite then sign ++ layout.decimalText (x.shortest layout.tie)
  else if x.isNaN then ['N', 'a', 'N']
  else sign ++ ['i', 'n', 'f']

end FloatLayout

end ProtoSchema
