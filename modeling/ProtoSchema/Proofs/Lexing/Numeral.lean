import ProtoSchema.Number.Layout
import ProtoSchema.Proofs.Lexing.Digits
import ProtoSchema.Proofs.Lexing.Spelling
import ProtoSchema.Proofs.Number.Shortest
import ProtoSchema.Render.Value

/-!
# Numbers

Integers and floating-point numbers are read back from the texts that they are written as: an
integer if it is within the bound of integers, a floating-point number if it is finite.
-/

namespace ProtoSchema

/-! ### Digits -/

/-- Only zero is written with a zero in front. -/
theorem eq_zero_of_head?_toDigits {n : Nat} (h : (Nat.toDigits 10 n).head? = some '0') : n = 0 := by
  induction n using Nat.strongRecOn with
  | ind n ih =>
    by_cases small : n < 10
    · rw [Nat.toDigits_of_lt_base small] at h
      simpa using h
    · rw [Nat.toDigits_of_base_le (by decide) (by omega)] at h
      -- The last digit stands behind those of `n / 10`, so the zero in front is theirs.
      have front : (Nat.toDigits 10 (n / 10)).head? = some '0' := by
        cases digits : Nat.toDigits 10 (n / 10) with
        | nil => exact absurd digits Nat.toDigits_ne_nil
        | cons c cs => simpa [digits] using h
      have := ih (n / 10) (by omega) front
      omega

theorem isDigit_of_mem_toDigits {n : Nat} : ∀ c ∈ Nat.toDigits 10 n, c.isDigit = true :=
  fun _ member => Nat.isDigit_of_mem_toDigits (by decide) (by decide) member

/-! ### Numerals -/

/-- An exponent with digits. -/
structure Exponent.IsPlain (e : Exponent) : Prop where
  marker : e.marker = 'e'
  sign : e.sign = none ∨ e.sign = some '-' ∨ e.sign = some '+'
  digits : e.digits ≠ [] ∧ ∀ c ∈ e.digits, c.isDigit = true

/-- A text that goes on neither with a digit nor with a point. -/
private def EndsDigits (text : List Char) : Prop :=
  ∀ c ∈ text.head?, c.isDigit = false ∧ c ≠ '.'

private theorem IsApart.endsDigits {rest : List Char} (behind : IsApart rest) : EndsDigits rest := by
  intro c first
  have apart := behind c first
  constructor
  · exact behind.eq_false (fun _ => isIdentChar_of_isDigit) c first
  · rintro rfl
    revert apart
    decide

theorem Exponent.scan_append {exponent : Option Exponent} {rest : List Char}
    (plain : ∀ e ∈ exponent, e.IsPlain) (behind : IsApart rest) :
    Exponent.scan ((exponent.map spelling).getD [] ++ rest) = (exponent, rest) := by
  cases exponent with
  | none =>
    cases rest with
    | nil => rfl
    | cons c rest =>
      have other : ¬ (c = 'e' ∨ c = 'E') := by
        rw [isApart_cons] at behind
        rintro (rfl | rfl) <;> revert behind <;> decide
      simp [scan, other]
  | some e =>
    obtain ⟨marker, sign, digits⟩ := e
    obtain ⟨rfl, signs, nonempty, inside⟩ := plain _ rfl
    have taken := takeWhile_append_of_head? inside
      (behind.eq_false fun _ => isIdentChar_of_isDigit)
    have split : scanSign (sign.toList ++ (digits ++ rest)) = (sign, digits ++ rest) := by
      -- Without a sign it is the first digit that must not be taken for one.
      rcases signs with rfl | rfl | rfl
      · cases digits with
        | nil => exact absurd rfl nonempty
        | cons d digits =>
          have digit := inside d List.mem_cons_self
          unfold scanSign
          simp only [Option.toList_none, List.nil_append, List.cons_append]
          split
          next same => cases same; exact absurd digit (by decide)
          next same => cases same; exact absurd digit (by decide)
          next => rfl
      · rfl
      · rfl
    simp [scan, spelling, split, taken, nonempty]

namespace Numeral

variable {whole rest : List Char} {fraction : Option (List Char)} {exponent : Option Exponent}

/-- A numeral in base ten whose parts are of digits. -/
structure IsPlain (whole : List Char) (fraction : Option (List Char)) (exponent : Option Exponent) :
    Prop where
  whole : whole ≠ [] ∧ ∀ c ∈ whole, c.isDigit = true
  fraction : ∀ f ∈ fraction, ∀ c ∈ f, c.isDigit = true
  exponent : ∀ e ∈ exponent, e.IsPlain

private theorem scanFraction_append (inside : ∀ f ∈ fraction, ∀ c ∈ f, c.isDigit = true)
    (behind : EndsDigits rest) :
    scanFraction ((fraction.map ('.' :: ·)).getD [] ++ rest) = (fraction, rest) := by
  cases fraction with
  | none =>
    cases rest with
    | nil => rfl
    | cons c rest =>
      unfold scanFraction
      split
      next same =>
        cases same
        exact absurd rfl (behind '.' rfl).2
      next => rfl
  | some digits =>
    have taken := takeWhile_append_of_head? (inside digits rfl) fun c first => (behind c first).1
    simp [scanFraction, taken]

private theorem endsDigits_exponent (plain : ∀ e ∈ exponent, e.IsPlain) (behind : IsApart rest) :
    EndsDigits ((exponent.map Exponent.spelling).getD [] ++ rest) := by
  cases exponent with
  | none => exact behind.endsDigits
  | some e =>
    intro c first
    have marker : e.marker = c := by simpa [Exponent.spelling] using first
    rw [← marker, (plain e rfl).marker]
    decide

theorem scanDecimal_append (plain : IsPlain whole fraction exponent) (behind : IsApart rest) :
    scanDecimal ((decimal whole fraction exponent).spelling ++ rest) =
      (decimal whole fraction exponent, rest) := by
  have atExponent := endsDigits_exponent plain.exponent behind
  -- The digits in front end where a fraction begins, or an exponent, or the rest.
  have atFraction : ∀ c ∈ ((fraction.map ('.' :: ·)).getD [] ++
      ((exponent.map Exponent.spelling).getD [] ++ rest)).head?, c.isDigit = false := by
    cases fraction with
    | none => exact fun c first => (atExponent c first).1
    | some digits =>
      intro c first
      have point : '.' = c := by simpa using first
      rw [← point]
      decide
  obtain ⟨taken, left⟩ := takeWhile_append_of_head? plain.whole.2 atFraction
  simp only [scanDecimal, spelling, List.append_assoc, taken, left,
    scanFraction_append plain.fraction atExponent, Exponent.scan_append plain.exponent behind]

/-- A plain numeral is not taken for a hexadecimal one. -/
theorem scan_append (plain : IsPlain whole fraction exponent) (behind : IsApart rest) :
    scan ((decimal whole fraction exponent).spelling ++ rest) =
      (decimal whole fraction exponent, rest) := by
  have decimal := scanDecimal_append plain behind
  unfold scan
  split
  next marker after same =>
    rw [same] at decimal
    split
    next hex =>
      -- The marker of a hexadecimal numeral would stand behind a plain one, and nothing like it may.
      have front : rest = marker :: after := by
        rcases hex with rfl | rfl <;> exact (congrArg Prod.snd decimal).symm
      rw [front, isApart_cons] at behind
      rcases hex with rfl | rfl <;> exact absurd behind (by decide)
    next => exact decimal
  next => exact decimal

theorem trailing_eq_nil (behind : IsApart rest) : trailing rest = [] := by
  cases rest with
  | nil => rfl
  | cons c rest =>
    have other : (c.isAlphanum || c = '_') = false := by
      rw [isApart_cons] at behind
      simp only [isIdentChar, Bool.or_eq_false_iff] at behind ⊢
      exact behind.1
    simp [trailing, other]

/-- A scan that takes a text as a whole, for a token or to refuse it. -/
def takes (taken rest : List Char) : Except LexicalCause Token → Scan Token
  | .ok t => .found t taken rest
  | .error cause => .failed cause taken rest

/-- A numeral that is set apart is taken for what it stands for. -/
theorem scanBehind_of_scan {n : Numeral} (scanned : scan (n.spelling ++ rest) = (n, rest))
    (behind : IsApart rest) (sign : List Char) : scanBehind sign (n.spelling ++ rest) =
      takes (sign ++ n.spelling) rest
        (n.token (sign ≠ []) (String.ofList (sign ++ n.spelling))) := by
  simp only [scanBehind, scanned, trailing_eq_nil behind, List.append_nil, if_true, List.length_nil,
    List.drop_zero]
  rfl

end Numeral

theorem Token.scan_of_isDigit {c : Char} (digit : c.isDigit = true) (rest : List Char) :
    scan (c :: rest) = Numeral.scanBehind [] (c :: rest) := by
  obtain ⟨noMark, noQuote⟩ := not_mark_of_isIdentChar (isIdentChar_of_isDigit digit)
  have noName := not_isIdentStart_of_isDigit digit
  have noPoint : c ≠ '.' := by rintro rfl; exact absurd digit (by decide)
  have noSign : c ≠ '-' := by rintro rfl; exact absurd digit (by decide)
  simp [scan, scanNumber, noMark, noQuote, noName, noPoint, noSign, digit]

theorem Token.scan_minus_of_isDigit {c : Char} (digit : c.isDigit = true) (rest : List Char) :
    scan ('-' :: c :: rest) = Numeral.scanBehind ['-'] (c :: rest) := by
  have sign : Mark.ofChar? '-' = none ∧ isIdentStart '-' = false ∧ Char.isDigit '-' = false := by
    decide
  have follows : nextIs (fun d => d.isDigit || d = '.') (c :: rest) = true := by
    simp [nextIs, digit]
  simp [scan, scanNumber, sign, follows]

/-- A minus sign, if there is one. -/
def minusSign (negative : Bool) : List Char := if negative then ['-'] else []

/-- A sign and a numeral that begins with a digit are read together. -/
theorem Token.scan_numeral {c : Char} {cs rest : List Char} {n : Numeral} (digit : c.isDigit = true)
    (spelled : n.spelling = c :: cs) (scanned : Numeral.scan (n.spelling ++ rest) = (n, rest))
    (behind : IsApart rest) (negative : Bool) : scan (minusSign negative ++ n.spelling ++ rest) =
      Numeral.takes (minusSign negative ++ n.spelling) rest
        (n.token negative (String.ofList (minusSign negative ++ n.spelling))) := by
  have read := Numeral.scanBehind_of_scan scanned behind (minusSign negative)
  rw [spelled] at read ⊢
  cases negative with
  | false => exact (Token.scan_of_isDigit digit _).trans read
  | true => exact (Token.scan_minus_of_isDigit digit _).trans read

/-- A numeral of digits is read as its value. -/
theorem isSpelling_numeral {whole : List Char} {fraction : Option (List Char)}
    {exponent : Option Exponent} {negative : Bool} {t : Token}
    (plain : Numeral.IsPlain whole fraction exponent) (more : t ≠ .eof)
    (value : ∀ text, (Numeral.decimal whole fraction exponent).token negative text = .ok t) :
    IsSpelling (minusSign negative ++ (Numeral.decimal whole fraction exponent).spelling) t := by
  refine ⟨more, fun rest behind => ?_⟩
  have scanned := Numeral.scan_append plain behind
  obtain ⟨c, digits, rfl⟩ := List.exists_cons_of_ne_nil plain.whole.1
  have digit : c.isDigit = true := plain.whole.2 c List.mem_cons_self
  rw [Token.scan_numeral digit rfl scanned behind, value]
  rfl

/-! ### Integers -/

/-- What a number behind a sign is read as. -/
def Numeral.boundedToken (negative : Bool) (text : String) (n : Nat) : Except LexicalCause Token :=
  if n < integerBound then .ok (.int (if negative then -n else n)) else .error (.integerOverflow text)

/-- Digits are read as the number that they stand for. -/
theorem Numeral.integer_eq {base : Nat} {digits : List Char} {values : List Nat} (small : base ≤ 16)
    (spelled : IsDigits base digits values) (negative : Bool) (text : String) :
    integer negative text base digits =
      boundedToken negative text (Nat.ofDigits base values.reverse) := by
  rw [integer, readInteger_eq text small spelled (by decide) (by rw [Nat.zero_mul, Nat.zero_add]),
    bounded, boundedToken]
  by_cases fits : Nat.ofDigits base values.reverse < integerBound
  · rw [if_pos fits, if_pos fits]
    rfl
  · rw [if_neg fits, if_neg fits]
    rfl

theorem Numeral.token_toDigits (n : Nat) (negative : Bool) (text : String) :
    (Numeral.decimal (Nat.toDigits 10 n) none none).token negative text =
      boundedToken negative text n := by
  obtain ⟨values, digits, worth⟩ := exists_isDigits_toDigits n
  unfold Numeral.token
  split
  next => contradiction
  next same =>
    cases same
    split
    next octal =>
      -- No other number than zero begins with a zero, and zero is one digit.
      have zero := eq_zero_of_head?_toDigits (congrArg List.head? octal)
      rw [zero, Nat.toDigits_zero] at octal
      cases octal
    next => rw [integer_eq (by decide) digits, worth]
  next other same =>
    cases same
    exact (other rfl rfl).elim

theorem Numeral.isPlain_whole {digits : List Char} (nonempty : digits ≠ [])
    (inside : ∀ c ∈ digits, c.isDigit = true) : IsPlain digits none none :=
  ⟨⟨nonempty, inside⟩, nofun, nofun⟩

theorem Numeral.isPlain_toDigits (n : Nat) : IsPlain (Nat.toDigits 10 n) none none :=
  isPlain_whole Nat.toDigits_ne_nil isDigit_of_mem_toDigits

/-- An integer is written as a sign and its digits. -/
theorem toList_toString_int (n : Int) : (toString n).toList =
    minusSign (n < 0) ++ (Numeral.decimal (Nat.toDigits 10 n.natAbs) none none).spelling := by
  rw [Int.toString_eq_repr, Int.repr_eq_if]
  by_cases nonnegative : 0 ≤ n
  · have digits : n.toNat = n.natAbs := by omega
    rw [if_pos nonnegative, digits, Nat.toList_repr]
    simp [minusSign, Numeral.spelling, nonnegative]
  · have digits : (-n).toNat = n.natAbs := by omega
    rw [if_neg nonnegative, digits, String.toList_append, Nat.toList_repr]
    simp [minusSign, Numeral.spelling, Int.not_le.mp nonnegative]

/-- An integer within the bound is read back as it is written. -/
theorem isSpelling_int {n : Int} (small : n.natAbs < Numeral.integerBound) :
    IsSpelling (toString n).toList (.int n) := by
  have value : (if n < 0 then -(n.natAbs : Int) else n.natAbs) = n := by omega
  have more : Token.int n ≠ .eof := nofun
  have read (text : String) :
      (Numeral.decimal (Nat.toDigits 10 n.natAbs) none none).token (n < 0) text = .ok (.int n) := by
    rw [Numeral.token_toDigits, Numeral.boundedToken, if_pos small]
    simp only [decide_eq_true_eq, value]
  have spelled := isSpelling_numeral (Numeral.isPlain_toDigits n.natAbs) more read
  rwa [toList_toString_int]

/-! ### Floating-point numbers -/

/-- A text of a plain numeral with a fraction or an exponent that is worth a decimal. -/
def IsDecimalText (d : Decimal) (text : List Char) : Prop :=
  ∃ whole fraction exponent, Numeral.IsPlain whole fraction exponent ∧
    text = (Numeral.decimal whole fraction exponent).spelling ∧
    (fraction = none → exponent ≠ none) ∧
    ∀ negative, Binary64.ofDecimal negative (Nat.ofDigitChars 10 (whole ++ fraction.getD []) 0)
      ((exponent.map Exponent.value).getD 0 - (fraction.getD []).length) = d.round negative

section Layout

variable {d : Decimal} {digits : List Char}

private theorem isDigit_of_mem_zeros {k : Nat} : ∀ c ∈ List.replicate k '0', c.isDigit = true := by
  intro c member
  rw [List.eq_of_mem_replicate member]
  decide

/-- Zeros in front of the digits put them behind the point. -/
private theorem isDecimalText_behindPoint (inside : ∀ c ∈ digits, c.isDigit = true)
    (value : Nat.ofDigitChars 10 digits 0 = d.digits) {zeros : Nat}
    (places : -((zeros : Int) + digits.length) = d.exponent) :
    IsDecimalText d ('0' :: '.' :: List.replicate zeros '0' ++ digits) := by
  refine ⟨['0'], some (List.replicate zeros '0' ++ digits), none,
    ⟨⟨nofun, List.all_eq_true.mp rfl⟩, ?_, nofun⟩, by simp [Numeral.spelling], nofun,
    fun negative => ?_⟩
  · rintro _ ⟨⟩ c member
    rcases List.mem_append.mp member with zero | digit
    · exact isDigit_of_mem_zeros c zero
    · exact inside c digit
  · have whole : Nat.ofDigitChars 10 (['0'] ++ (List.replicate zeros '0' ++ digits)) 0 = d.digits := by
      simp [Nat.ofDigitChars_cons, Nat.ofDigitChars_append, value]
    have exponent : (0 : Int) - (List.replicate zeros '0' ++ digits).length = d.exponent := by
      simp only [List.length_append, List.length_replicate]
      omega
    simp only [Option.getD_some, Option.map_none, Option.getD_none, whole, exponent]
    rfl

/-- The point may stand between the digits. -/
private theorem isDecimalText_aroundPoint (inside : ∀ c ∈ digits, c.isDigit = true)
    (value : Nat.ofDigitChars 10 digits 0 = d.digits) {point : Nat} (positive : 0 < point)
    (more : point < digits.length) (places : (point : Int) - digits.length = d.exponent) :
    IsDecimalText d (digits.take point ++ '.' :: digits.drop point) := by
  refine ⟨digits.take point, some (digits.drop point), none, ⟨⟨?_, ?_⟩, ?_, nofun⟩,
    by simp [Numeral.spelling], nofun, fun negative => ?_⟩
  · intro none
    have := congrArg List.length none
    simp only [List.length_take, List.length_nil] at this
    omega
  · exact fun c member => inside c (List.mem_of_mem_take member)
  · rintro _ ⟨⟩ c member
    exact inside c (List.mem_of_mem_drop member)
  · have exponent : (0 : Int) - (digits.drop point).length = d.exponent := by
      rw [List.length_drop]
      omega
    simp only [Option.getD_some, Option.map_none, Option.getD_none, List.take_append_drop, value,
      exponent]
    rfl

/-- Zeros behind the digits, and one behind the point, are worth an exponent. -/
private theorem isDecimalText_beforePoint (nonempty : digits ≠ [])
    (inside : ∀ c ∈ digits, c.isDigit = true) (value : Nat.ofDigitChars 10 digits 0 = d.digits)
    {zeros : Nat} (places : zeros = d.exponent) :
    IsDecimalText d (digits ++ List.replicate zeros '0' ++ ['.', '0']) := by
  refine ⟨digits ++ List.replicate zeros '0', some ['0'], none, ⟨⟨by simp [nonempty], ?_⟩, ?_, nofun⟩,
    by simp [Numeral.spelling], nofun, fun negative => ?_⟩
  · intro c member
    rcases List.mem_append.mp member with digit | zero
    · exact inside c digit
    · exact isDigit_of_mem_zeros c zero
  · rintro _ ⟨⟩
    exact List.all_eq_true.mp rfl
  · have whole : Nat.ofDigitChars 10 (digits ++ List.replicate zeros '0' ++ ['0']) 0 =
        d.digits * 10 ^ (zeros + 1) := by
      simp only [Nat.ofDigitChars_append, value, Nat.ofDigitChars_replicate_zero,
        Nat.ofDigitChars_cons, Nat.ofDigitChars_nil, Nat.pow_succ]
      grind
    have exponent : (-1 : Int) + (zeros + 1 : Nat) = d.exponent := by omega
    calc Binary64.ofDecimal negative (Nat.ofDigitChars 10 (digits ++ List.replicate zeros '0' ++ ['0']) 0) (-1)
        = Binary64.ofDecimal negative (d.digits * 10 ^ (zeros + 1)) (-1) := by rw [whole]
      _ = d.round negative := by rw [Binary64.ofDecimal_mul_ten_pow, exponent]; rfl

/-- An exponent as it is laid out, perhaps with a plus sign. -/
private def laidOut (plusSign : Bool) (exponent : Int) : Exponent :=
  ⟨'e', if exponent < 0 then some '-' else if plusSign then some '+' else none,
    Nat.toDigits 10 exponent.natAbs⟩

private theorem isPlain_laidOut (plusSign : Bool) (exponent : Int) :
    (laidOut plusSign exponent).IsPlain where
  marker := rfl
  sign := by
    unfold laidOut
    split
    · exact .inr (.inl rfl)
    · cases plusSign
      · exact .inl rfl
      · exact .inr (.inr rfl)
  digits := ⟨Nat.toDigits_ne_nil, isDigit_of_mem_toDigits⟩

private theorem value_laidOut (plusSign : Bool) (exponent : Int) :
    (laidOut plusSign exponent).value = exponent := by
  unfold laidOut Exponent.value
  simp only [Nat.ofDigitChars_ten_toDigits]
  by_cases negative : exponent < 0
  · rw [if_pos negative, if_pos rfl]
    omega
  · have other : (if plusSign then some '+' else none) ≠ some '-' := by cases plusSign <;> decide
    rw [if_neg negative, if_neg other]
    omega

/-- The point may stand behind the first digit, with an exponent to make up for it. -/
private theorem isDecimalText_withExponent {first : Char} (fraction : Option (List Char))
    (plusSign : Bool) {exponent : Int} (digit : first.isDigit = true)
    (inside : ∀ f ∈ fraction, ∀ c ∈ f, c.isDigit = true)
    (value : Nat.ofDigitChars 10 (first :: fraction.getD []) 0 = d.digits)
    (places : exponent - (fraction.getD []).length = d.exponent) :
    IsDecimalText d
      (first :: (fraction.map ('.' :: ·)).getD [] ++ (laidOut plusSign exponent).spelling) := by
  refine ⟨[first], fraction, some (laidOut plusSign exponent), ⟨by simpa using digit, inside, ?_⟩,
    rfl, fun _ => Option.some_ne_none _, fun negative => ?_⟩
  · rintro _ ⟨⟩
    exact isPlain_laidOut plusSign exponent
  · simp only [Option.map_some, Option.getD_some, value_laidOut, List.singleton_append, value, places]
    rfl

private theorem isDecimalText_scientificText (layout : FloatLayout)
    (nonempty : digits ≠ []) (inside : ∀ c ∈ digits, c.isDigit = true)
    (value : Nat.ofDigitChars 10 digits 0 = d.digits) :
    IsDecimalText d (layout.scientificText digits (digits.length + d.exponent)) := by
  obtain ⟨first, rest, rfl⟩ := List.exists_cons_of_ne_nil nonempty
  obtain ⟨digit, digits⟩ := List.forall_mem_cons.mp inside
  have sign (exponent : Int) :
      (if exponent < 0 then ['-'] else if layout.plusSign then ['+'] else []) =
        (if exponent < 0 then some '-' else if layout.plusSign then some '+' else none).toList := by
    split
    · rfl
    · split <;> rfl
  cases rest with
  | nil =>
    have places : (([first].length + d.exponent - 1 : Int)) - (([] : List Char).length : Int) =
        d.exponent := by
      simp only [List.length_cons, List.length_nil]
      omega
    have text := isDecimalText_withExponent none layout.plusSign digit nofun value places
    unfold laidOut Exponent.spelling at text
    rw [← sign] at text
    simpa [FloatLayout.scientificText] using text
  | cons second rest =>
    have places : (((first :: second :: rest).length + d.exponent - 1 : Int)) -
        ((second :: rest).length : Int) = d.exponent := by
      simp only [List.length_cons]
      omega
    have fraction : ∀ f ∈ some (second :: rest), ∀ c ∈ f, c.isDigit = true := by
      rintro _ ⟨⟩
      exact digits
    have text := isDecimalText_withExponent _ layout.plusSign digit fraction value places
    unfold laidOut Exponent.spelling at text
    rw [← sign] at text
    simpa [FloatLayout.scientificText] using text

end Layout

theorem FloatLayout.isDecimalText_decimalText (layout : FloatLayout)
    (wholeFraction : layout.wholeFraction = true) (d : Decimal) :
    IsDecimalText d (layout.decimalText d) := by
  have inside := isDigit_of_mem_toDigits (n := d.digits)
  have value : Nat.ofDigitChars 10 (Nat.toDigits 10 d.digits) 0 = d.digits :=
    Nat.ofDigitChars_ten_toDigits
  have nonempty : Nat.toDigits 10 d.digits ≠ [] := Nat.toDigits_ne_nil
  unfold decimalText
  simp only
  -- What the layouts need of the digits has been said.
  generalize Nat.toDigits 10 d.digits = digits at inside value nonempty
  have positional : IsDecimalText d (layout.positionalText digits (digits.length + d.exponent)) := by
    unfold positionalText
    by_cases behind : digits.length + d.exponent ≤ 0
    · rw [if_pos behind]
      exact isDecimalText_behindPoint inside value (by omega)
    rw [if_neg behind]
    by_cases around : digits.length + d.exponent < digits.length
    · rw [if_pos around]
      exact isDecimalText_aroundPoint inside value (by omega) (by omega) (by omega)
    · rw [if_neg around, wholeFraction, if_pos rfl]
      exact isDecimalText_beforePoint nonempty inside value (by omega)
  have scientific := isDecimalText_scientificText layout nonempty inside value
  exact iteInduction (fun _ => positional) fun _ => scientific

/-- A numeral with a fraction or an exponent is the floating-point number that it is worth. -/
theorem Numeral.token_of_marked {whole : List Char} {fraction : Option (List Char)}
    {exponent : Option Exponent} {negative : Bool} {x : Binary64} (text : String)
    (marked : fraction = none → exponent ≠ none) (nonempty : whole ≠ [])
    (finite : x.isFinite = true)
    (value : Binary64.ofDecimal negative (Nat.ofDigitChars 10 (whole ++ fraction.getD []) 0)
      ((exponent.map Exponent.value).getD 0 - (fraction.getD []).length) = x) :
    (decimal whole fraction exponent).token negative text = .ok (.float x) := by
  have digits : whole ++ fraction.getD [] ≠ [] := List.append_ne_nil_of_left_ne_nil nonempty _
  unfold token
  split
  next => contradiction
  next same =>
    cases same
    exact absurd rfl (marked rfl)
  next same =>
    cases same
    simp only [float, if_neg digits, value, finite, if_true]

/-- A finite number is written as a sign and a numeral that is worth it, with a fraction or an
exponent. -/
theorem FloatLayout.exists_numeral_of_text (layout : FloatLayout)
    (wholeFraction : layout.wholeFraction = true) {x : Binary64} (finite : x.isFinite = true) :
    ∃ whole fraction exponent, Numeral.IsPlain whole fraction exponent ∧
      layout.text x = minusSign x.negative ++ (Numeral.decimal whole fraction exponent).spelling ∧
      (fraction = none → exponent ≠ none) ∧
      Binary64.ofDecimal x.negative (Nat.ofDigitChars 10 (whole ++ fraction.getD []) 0)
        ((exponent.map Exponent.value).getD 0 - (fraction.getD []).length) = x := by
  obtain ⟨whole, fraction, exponent, plain, text, marked, value⟩ :=
    layout.isDecimalText_decimalText wholeFraction (x.shortest layout.tie)
  refine ⟨whole, fraction, exponent, plain, ?_, marked, ?_⟩
  · unfold FloatLayout.text
    rw [if_pos finite]
    exact congrArg _ text
  · exact (value x.negative).trans (Binary64.round_shortest finite layout.tie)

/-- A finite number is read back as it is written in option values. -/
theorem isSpelling_float {x : Binary64} (finite : x.isFinite = true) :
    IsSpelling (Value.floatLayout.text x) (.float x) := by
  obtain ⟨whole, fraction, exponent, plain, text, marked, value⟩ :=
    Value.floatLayout.exists_numeral_of_text rfl finite
  have more : Token.float x ≠ .eof := nofun
  rw [text]
  exact isSpelling_numeral plain more fun source =>
    Numeral.token_of_marked source marked plain.whole.1 finite value

end ProtoSchema
