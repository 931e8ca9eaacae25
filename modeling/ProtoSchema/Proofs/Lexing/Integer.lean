import ProtoSchema.Proofs.Lexing.Layout

/-!
# Integers as they may be written

A number is written in base ten, in base eight behind a zero or in base sixteen behind `0x`. However
it is written, it is read as itself if it is within 64 bits, and beyond them it is refused as too
large and never read as another number.
-/

namespace ProtoSchema

/-- The ways to write a number without a sign. -/
inductive IsIntegerText : List Char → Nat → Prop
  | decimal (n : Nat) : IsIntegerText (Nat.toDigits 10 n) n
  | octal {digits : List Char} {values : List Nat} :
      digits ≠ [] → IsDigits 8 digits values →
      IsIntegerText ('0' :: digits) (Nat.ofDigits 8 values.reverse)
  | hex {marker : Char} {digits : List Char} {values : List Nat} :
      marker = 'x' ∨ marker = 'X' → digits ≠ [] → IsDigits 16 digits values →
      IsIntegerText ('0' :: marker :: digits) (Nat.ofDigits 16 values.reverse)

namespace Numeral

/-- Hexadecimal digits are taken up to what is set apart from them. -/
theorem scan_hex {marker : Char} {digits rest : List Char} (isMarker : marker = 'x' ∨ marker = 'X')
    (inside : ∀ c ∈ digits, isDigitOf 16 c = true) (behind : IsApart rest) :
    scan ((hex marker digits).spelling ++ rest) = (hex marker digits, rest) := by
  obtain ⟨taken, left⟩ := takeWhile_append_of_head? inside
    (behind.eq_false fun _ => isIdentChar_of_isDigitOf)
  simp only [spelling, List.cons_append, scan, if_pos isMarker, taken, left]

end Numeral

/-- The numeral that a number is written as: it begins with a digit, it is taken as a whole, and it
stands for the number. -/
theorem IsIntegerText.exists_numeral {digits : List Char} {n : Nat} (h : IsIntegerText digits n) :
    ∃ m : Numeral, m.spelling = digits ∧ (∃ c cs, digits = c :: cs ∧ c.isDigit = true) ∧
      (∀ rest, IsApart rest → Numeral.scan (m.spelling ++ rest) = (m, rest)) ∧
      ∀ negative text, m.token negative text = Numeral.boundedToken negative text n := by
  cases h with
  | decimal =>
    have plain := Numeral.isPlain_toDigits n
    obtain ⟨c, cs, digits⟩ := List.exists_cons_of_ne_nil plain.whole.1
    have digit : c.isDigit = true := plain.whole.2 c (digits ▸ List.mem_cons_self)
    exact ⟨.decimal _ none none, by simp [Numeral.spelling], ⟨c, cs, digits, digit⟩,
      fun rest => Numeral.scan_append plain, fun _ _ => Numeral.token_toDigits ..⟩
  | @octal digits values nonempty spelled =>
    have inside : ∀ c ∈ '0' :: digits, c.isDigit = true :=
      List.forall_mem_cons.mpr ⟨rfl, spelled.forall_mem fun _ _ digit => digit.isDigit (by decide)⟩
    have plain := Numeral.isPlain_whole (List.cons_ne_nil _ _) inside
    refine ⟨.decimal _ none none, by simp [Numeral.spelling], ⟨'0', digits, rfl, rfl⟩,
      fun rest => Numeral.scan_append plain, fun negative text => ?_⟩
    -- Behind the zero there are further digits, so the base is eight.
    obtain ⟨c, cs, rfl⟩ := List.exists_cons_of_ne_nil nonempty
    exact Numeral.integer_eq (by decide) spelled negative text
  | @hex marker digits values isMarker nonempty spelled =>
    have inside := spelled.forall_mem fun _ _ digit => digit.isDigitOf (Nat.le_refl 16)
    refine ⟨.hex marker digits, rfl, ⟨'0', _, rfl, rfl⟩,
      fun rest => Numeral.scan_hex isMarker inside, fun negative text => ?_⟩
    rw [Numeral.token, if_neg nonempty]
    exact Numeral.integer_eq (Nat.le_refl 16) spelled negative text

namespace IsIntegerText

variable {digits : List Char} {n : Nat}

/-- A number with or without a sign is taken as a whole, and only the number matters. -/
theorem scan {rest : List Char} (h : IsIntegerText digits n) (apart : IsApart rest)
    (negative : Bool) : Token.scan (minusSign negative ++ digits ++ rest) =
      Numeral.takes (minusSign negative ++ digits) rest
        (Numeral.boundedToken negative (String.ofList (minusSign negative ++ digits)) n) := by
  obtain ⟨m, rfl, ⟨c, cs, spelled, digit⟩, scanned, value⟩ := h.exists_numeral
  rw [Token.scan_numeral digit spelled (scanned rest apart) apart, value]

/-- No filler begins with a sign or a digit. -/
theorem noFiller (h : IsIntegerText digits n) (negative : Bool) (rest : List Char) :
    Filler.first? (minusSign negative ++ digits ++ rest) = none ∧
      Lexer.opensComment (minusSign negative ++ digits ++ rest) = false := by
  obtain ⟨m, -, ⟨c, cs, rfl, digit⟩, -, -⟩ := h.exists_numeral
  cases negative with
  | true => exact noFiller_of_not_startsFiller _ (by decide)
  | false =>
    refine noFiller_of_not_startsFiller _ fun filler => ?_
    simp only [Filler.isSpace, Bool.or_eq_true, decide_eq_true_eq, or_assoc] at filler
    rcases filler with rfl | rfl | rfl | rfl | rfl | rfl | rfl <;> exact absurd digit (by decide)

end IsIntegerText

namespace Lexer

/-- However an integer is written, it is read as itself and up to its last digit if it is within 64
bits, and otherwise it is refused, as it is written and where it begins. -/
theorem next_integer {l : Lexer} {gap digits rest : List Char} {n : Nat} {negative : Bool}
    (isGap : IsGap gap) (written : IsIntegerText digits n) (apart : IsApart rest)
    (whole : l.rest = gap ++ (minusSign negative ++ digits ++ rest)) :
    (n < Nat.pow 2 64 → l.next =
      (.ok ⟨.int (if negative then -n else n), l.position.advance gap, l.documentation⟩,
        ⟨l.config, rest, l.position.advance (gap ++ (minusSign negative ++ digits)), true⟩)) ∧
      (Nat.pow 2 64 ≤ n → l.next.1 = .error
        ⟨.integerOverflow (String.ofList (minusSign negative ++ digits)),
          l.position.advance gap⟩) := by
  have bound : Numeral.integerBound = Nat.pow 2 64 := rfl
  -- From here on it does not matter how the number is written.
  have scanned := written.scan apart negative
  unfold Numeral.boundedToken at scanned
  refine ⟨fun small => ?_, fun large => ?_⟩
  · rw [if_pos (bound ▸ small)] at scanned
    exact next_of_gap isGap whole scanned
  · rw [if_neg (bound ▸ Nat.not_lt.mpr large)] at scanned
    obtain ⟨noFiller, noComment⟩ := written.noFiller negative rest
    obtain ⟨filler, behind⟩ := isGap.scan_of_none noFiller
    have failed : (firstScan l.rest).outcome =
        .error ⟨.integerOverflow (String.ofList (minusSign negative ++ digits)), []⟩ := by
      rw [firstScan, whole, behind, scanned]
      rfl
    have answer := next_of_fault failed
    rw [tokenPosition, faultOf, whole, behind, noComment, filler] at answer
    exact answer

/-- Zeros in front and the case of letters do not matter, and the first number beyond 64 bits is
refused. -/
theorem next_integer_hex_and_large :
    (ofText {} " -0X0fF;".toList).next =
      (.ok ⟨.int (-255), ⟨1, 2, 1⟩, none⟩, ⟨{}, [';'], ⟨1, 8, 7⟩, true⟩) ∧
    (ofText {} "18446744073709551616".toList).next.1 =
      .error ⟨.integerOverflow "18446744073709551616", .start⟩ := by
  have hex : IsIntegerText "0X0fF".toList 255 :=
    @IsIntegerText.hex 'X' ['0', 'f', 'F'] [0, 15, 15] (.inr rfl) nofun
      (.cons ⟨by decide, .inl rfl⟩ (.cons ⟨by decide, .inl rfl⟩ (.cons ⟨by decide, .inr rfl⟩ .nil)))
  have small := @next_integer (ofText {} " -0X0fF;".toList) [' '] _ [';'] 255 true
    (.blank (by decide) .nil) hex (isApart_cons.mpr rfl) (by decide)
  have large := @next_integer (ofText {} "18446744073709551616".toList) [] _ [] _ false
    .nil (.decimal 18446744073709551616) isApart_nil (by decide +kernel)
  exact ⟨(small.1 (by decide)).trans (by decide +kernel), large.2 (by decide)⟩

end Lexer

end ProtoSchema
