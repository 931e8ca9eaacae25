import ProtoSchema.Token
import ProtoSchema.Token.Scan

/-!
# Numerals

How numbers are written: hexadecimal behind `0x`, octal behind a further `0`, decimal otherwise, and
floating-point where there is a point or an exponent. `Numeral.scan` takes the longest numeral and
`Numeral.token` gives its value, or what is wrong with it.
-/

namespace ProtoSchema

/-! ### Digits -/

/-- The value of a digit in the bases up to sixteen. -/
def digitValue? (c : Char) : Option Nat :=
  if c.isDigit then some (c.toNat - '0'.toNat)
  else if 'a' ≤ c ∧ c ≤ 'f' then some (c.toNat - 'a'.toNat + 10)
  else if 'A' ≤ c ∧ c ≤ 'F' then some (c.toNat - 'A'.toNat + 10)
  else none

/-- Whether a character is a digit in a base up to sixteen. -/
def isDigitOf (base : Nat) (c : Char) : Bool :=
  match digitValue? c with
  | some d => d < base
  | none => false

/-- The value of a run of digits. -/
def digitsValue (base : Nat) (digits : List Char) : Nat :=
  digits.foldl (fun value c => value * base + (digitValue? c).getD 0) 0

/-- What may follow the first character of an identifier. -/
def isIdentChar (c : Char) : Bool :=
  c.isAlphanum || c = '_' || c = '.'

/-! ### How numerals are written -/

/-- The exponent of a floating-point numeral. -/
structure Exponent where
  marker : Char
  sign : Option Char
  digits : List Char
  deriving DecidableEq, Repr

/-- A numeral without its sign. -/
inductive Numeral where
  | hex (marker : Char) (digits : List Char)
  | decimal (whole : List Char) (fraction : Option (List Char)) (exponent : Option Exponent)
  deriving DecidableEq, Repr

namespace Exponent

/-- An exponent as it is written. -/
def spelling (e : Exponent) : List Char :=
  e.marker :: e.sign.toList ++ e.digits

/-- The power of ten that an exponent stands for. -/
def value (e : Exponent) : Int :=
  let magnitude : Int := Nat.ofDigitChars 10 e.digits 0
  if e.sign = some '-' then -magnitude else magnitude

/-- The sign at the beginning of a text. -/
def scanSign : List Char → Option Char × List Char
  | '+' :: rest => (some '+', rest)
  | '-' :: rest => (some '-', rest)
  | rest => (none, rest)

/-- The exponent at the beginning of a text; a marker without digits is none. -/
def scan : List Char → Option Exponent × List Char
  | [] => (none, [])
  | c :: rest =>
    if c = 'e' ∨ c = 'E' then
      let (sign, digits) := scanSign rest
      if digits.takeWhile Char.isDigit = [] then (none, c :: rest)
      else (some ⟨c, sign, digits.takeWhile Char.isDigit⟩, digits.dropWhile Char.isDigit)
    else (none, c :: rest)

theorem scanSign_eq (cs : List Char) : (scanSign cs).1.toList ++ (scanSign cs).2 = cs := by
  unfold scanSign
  split <;> rfl

theorem scan_eq (cs : List Char) :
    ((scan cs).1.map spelling).getD [] ++ (scan cs).2 = cs := by
  fun_cases scan cs with
  | case1 => rfl
  | case2 c rest _ sign digits h => simp
  | case3 c rest _ sign digits h =>
    have := scanSign_eq rest
    simp_all [spelling]
  | case4 => simp

end Exponent

namespace Numeral

/-- A numeral as it is written. -/
def spelling : Numeral → List Char
  | hex marker digits => '0' :: marker :: digits
  | decimal whole fraction exponent =>
    whole ++ (fraction.map ('.' :: ·)).getD [] ++ (exponent.map Exponent.spelling).getD []

/-- The fraction at the beginning of a text. -/
def scanFraction : List Char → Option (List Char) × List Char
  | '.' :: rest => (some (rest.takeWhile Char.isDigit), rest.dropWhile Char.isDigit)
  | rest => (none, rest)

/-- The numeral in base ten at the beginning of a text. -/
def scanDecimal (cs : List Char) : Numeral × List Char :=
  let (fraction, behindFraction) := scanFraction (cs.dropWhile Char.isDigit)
  let (exponent, rest) := Exponent.scan behindFraction
  (decimal (cs.takeWhile Char.isDigit) fraction exponent, rest)

/-- The numeral at the beginning of a text. -/
def scan : List Char → Numeral × List Char
  | '0' :: marker :: rest =>
    if marker = 'x' ∨ marker = 'X' then
      (hex marker (rest.takeWhile (isDigitOf 16)), rest.dropWhile (isDigitOf 16))
    else scanDecimal ('0' :: marker :: rest)
  | cs => scanDecimal cs

theorem scanFraction_eq (cs : List Char) :
    ((scanFraction cs).1.map ('.' :: ·)).getD [] ++ (scanFraction cs).2 = cs := by
  unfold scanFraction
  split <;> simp

theorem scanDecimal_eq (cs : List Char) :
    (scanDecimal cs).1.spelling ++ (scanDecimal cs).2 = cs := by
  simp only [scanDecimal, spelling, List.append_assoc]
  rw [Exponent.scan_eq, scanFraction_eq, List.takeWhile_append_dropWhile]

theorem scan_eq (cs : List Char) : (scan cs).1.spelling ++ (scan cs).2 = cs := by
  unfold scan
  split
  · split
    · simp [spelling]
    · exact scanDecimal_eq _
  · exact scanDecimal_eq _

/-! ### What numerals stand for -/

/-- What runs on behind a numeral, though no numeral can: such a stretch makes it malformed. -/
def trailing : List Char → List Char
  | [] => []
  | c :: rest => if c.isAlphanum || c = '_' then (c :: rest).takeWhile isIdentChar else []

/-- Integers are below this bound. -/
def integerBound : Nat := 0x10000000000000000

/-- Digits read from left to right, behind digits of the value so far: the first digit that does not
belong to the base, or that makes the value too large, decides the fault. -/
def readInteger (text : String) (base : Nat) (value : Nat) : List Char → Except LexicalCause Nat
  | [] => .ok value
  | c :: rest =>
    if isDigitOf base c then
      let next := value * base + (digitValue? c).getD 0
      if next < integerBound then readInteger text base next rest
      else .error (.integerOverflow text)
    else .error (.malformedNumber text)

/-- An integer token from its digits. -/
def integer (negative : Bool) (text : String) (base : Nat) (digits : List Char) :
    Except LexicalCause Token :=
  (readInteger text base 0 digits).map fun n => .int (if negative then -n else n)

/-- A floating-point token from its digits before and behind the point and its exponent. -/
def float (negative : Bool) (text : String) (whole fraction : List Char) (exponent : Int) :
    Except LexicalCause Token :=
  -- A point alone is no number, though an exponent may follow it.
  let digits := whole ++ fraction
  if digits = [] then .error (.malformedNumber text)
  else
    let x := Binary64.ofDecimal negative (Nat.ofDigitChars 10 digits 0) (exponent - fraction.length)
    if x.isFinite then .ok (.float x) else .error (.floatOverflow text)

/-- The token that a numeral with its sign stands for; `text` is how it was written. -/
def token (negative : Bool) (text : String) : Numeral → Except LexicalCause Token
  | hex _ digits =>
    if digits = [] then .error (.malformedNumber text) else integer negative text 16 digits
  | decimal whole none none =>
    match whole with
    -- A zero in front of further digits makes them octal; alone it is a decimal digit.
    | '0' :: c :: rest => integer negative text 8 (c :: rest)
    | digits => integer negative text 10 digits
  | decimal whole fraction exponent =>
    float negative text whole (fraction.getD []) ((exponent.map Exponent.value).getD 0)

theorem trailing_isPrefixOf (cs : List Char) : trailing cs <+: cs := by
  unfold trailing
  split
  · exact List.nil_prefix
  · split
    · exact List.takeWhile_prefix _
    · exact List.nil_prefix

/-! ### Numbers in a text -/

/-- The numeral at the beginning of a text, behind a sign that may be empty. -/
def scanBehind (sign cs : List Char) : Scan Token :=
  let (numeral, rest) := scan cs
  let taken := sign ++ numeral.spelling ++ trailing rest
  let after := rest.drop (trailing rest).length
  let text := String.ofList taken
  if trailing rest = [] then
    match numeral.token (sign ≠ []) text with
    | .ok token => .found token taken after
    | .error cause => .failed cause taken after
  else .failed (.malformedNumber text) taken after

theorem text_scanBehind (sign cs : List Char) : (scanBehind sign cs).text = sign ++ cs := by
  have numeral := scan_eq cs
  have split := List.prefix_iff_eq_append.1 (trailing_isPrefixOf (scan cs).2)
  have whole : (sign ++ (scan cs).1.spelling ++ trailing (scan cs).2) ++
      (scan cs).2.drop (trailing (scan cs).2).length = sign ++ cs := by
    rw [List.append_assoc, split, List.append_assoc, numeral]
  unfold scanBehind
  simp only
  split
  · split <;> exact whole
  · exact whole

theorem taken_scanBehind (sign cs : List Char) :
    (scanBehind sign cs).taken =
      sign ++ (scan cs).1.spelling ++ trailing (scan cs).2 := by
  unfold scanBehind
  simp only
  split
  · split <;> rfl
  · rfl

theorem spelling_scan_ne_nil {c : Char} (rest : List Char) (h : c.isDigit ∨ c = '.') :
    (scan (c :: rest)).1.spelling ≠ [] := by
  have decimal : (scanDecimal (c :: rest)).1.spelling ≠ [] := by
    -- A digit is taken as the whole part, a point as the beginning of the fraction.
    by_cases digit : c.isDigit
    · simp [scanDecimal, spelling, digit]
    · have point : c = '.' := h.resolve_left digit
      subst point
      simp [scanDecimal, spelling, scanFraction]
  unfold scan
  split
  next marker after same =>
    split
    · simp [spelling]
    · exact same ▸ decimal
  · exact decimal

end Numeral

/-- The number at the beginning of a text. -/
def scanNumber : List Char → Scan Token
  | '-' :: rest => Numeral.scanBehind ['-'] rest
  | cs => Numeral.scanBehind [] cs

theorem text_scanNumber (cs : List Char) : (scanNumber cs).text = cs := by
  unfold scanNumber
  split <;> simp [Numeral.text_scanBehind]

theorem taken_scanNumber_ne_nil {c : Char} (rest : List Char)
    (h : c.isDigit ∨ c = '.' ∨ c = '-') : (scanNumber (c :: rest)).taken ≠ [] := by
  unfold scanNumber
  split
  · simp [Numeral.taken_scanBehind]
  next other =>
    have leading : c.isDigit ∨ c = '.' := by
      rcases h with h | h | h
      · exact .inl h
      · exact .inr h
      · exact absurd (by rw [h]) (other rest)
    simp [Numeral.taken_scanBehind, Numeral.spelling_scan_ne_nil rest leading]

end ProtoSchema
