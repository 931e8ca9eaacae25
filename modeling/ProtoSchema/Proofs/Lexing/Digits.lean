import Mathlib.Data.List.Forall2
import Mathlib.Data.Nat.Digits.Defs
import ProtoSchema.Token.Numeral

/-!
# Digits

A run of digits in a base up to sixteen stands for a number, and as that number it is read, or as too
large if it is not within the bound of integers. Nothing else about it matters: how long it is,
whether it begins with zeros, and in which case its letters are.
-/

namespace ProtoSchema

/-! ### One digit -/

theorem isIdentChar_of_isDigit {c : Char} (h : c.isDigit = true) : isIdentChar c = true := by
  simp [isIdentChar, Char.isAlphanum, h]

theorem isIdentChar_of_isDigitOf {base : Nat} {c : Char} (h : isDigitOf base c = true) :
    isIdentChar c = true := by
  -- The letters that are digits go up to the last one of base 16.
  have z : 'f' ≤ 'z' ∧ 'F' ≤ 'Z' := by decide
  have letter (alpha : c.isUpper = true ∨ c.isLower = true) : isIdentChar c = true := by
    have alpha : c.isAlpha = true := (Bool.or_eq_true ..).mpr alpha
    simp [isIdentChar, Char.isAlphanum, alpha]
  unfold isDigitOf digitValue? at h
  split at h
  next found =>
    split at found
    next digit => exact isIdentChar_of_isDigit digit
    split at found
    next lower =>
      refine letter (.inr ?_)
      delta Char.isLower
      simpa using ⟨lower.1, Char.le_trans lower.2 z.1⟩
    split at found
    next upper =>
      refine letter (.inl ?_)
      delta Char.isUpper
      simpa using ⟨upper.1, Char.le_trans upper.2 z.2⟩
    next => cases found
  next => cases h

theorem digitValue?_digitChar {n : Nat} (h : n < 16) : digitValue? n.digitChar = some n := by
  have all : ∀ n < 16, digitValue? n.digitChar = some n := by decide
  exact all n h

theorem isDigitOf_digitChar (base : Nat) {n : Nat} (h : n < 16) :
    isDigitOf base n.digitChar = decide (n < base) := by
  rw [isDigitOf, digitValue?_digitChar h]

/-- A character is the digit of a value in a base, in either case. -/
def IsDigit (base : Nat) (c : Char) (value : Nat) : Prop :=
  value < base ∧ (c = value.digitChar ∨ c = value.digitChar.toUpper)

namespace IsDigit

variable {base value : Nat} {c : Char}

theorem digitValue? (h : IsDigit base c value) (small : base ≤ 16) :
    digitValue? c = some value := by
  have upper : ∀ n < 16, ProtoSchema.digitValue? n.digitChar.toUpper = some n := by decide
  obtain ⟨inside, rfl | rfl⟩ := h
  · exact digitValue?_digitChar (Nat.lt_of_lt_of_le inside small)
  · exact upper value (Nat.lt_of_lt_of_le inside small)

theorem isDigitOf (h : IsDigit base c value) (small : base ≤ 16) : isDigitOf base c = true := by
  rw [ProtoSchema.isDigitOf, h.digitValue? small]
  exact decide_eq_true h.1

/-- Digits up to nine are no letters. -/
theorem isDigit (h : IsDigit base c value) (small : base ≤ 10) : c.isDigit = true := by
  have all : ∀ n < 10, n.digitChar.isDigit = true ∧ n.digitChar.toUpper.isDigit = true := by decide
  obtain ⟨lower, upper⟩ := all value (Nat.lt_of_lt_of_le h.1 small)
  rcases h.2 with rfl | rfl
  · exact lower
  · exact upper

end IsDigit

/-! ### Runs of digits -/

/-- The characters of a text are the digits of these values, the first of which is worth the most. -/
def IsDigits (base : Nat) (digits : List Char) (values : List Nat) : Prop :=
  List.Forall₂ (IsDigit base) digits values

theorem IsDigits.forall_mem {base : Nat} {digits : List Char} {values : List Nat} {p : Char → Prop}
    (h : IsDigits base digits values) (each : ∀ c value, IsDigit base c value → p c) :
    ∀ c ∈ digits, p c := by
  induction h with
  | nil => exact List.forall_mem_nil _
  | cons digit _ ih => exact List.forall_mem_cons.mpr ⟨each _ _ digit, ih⟩

/-- What a number is written as in base ten is a run of digits that stands for it. -/
theorem exists_isDigits_toDigits (n : Nat) :
    ∃ values, IsDigits 10 (Nat.toDigits 10 n) values ∧ Nat.ofDigits 10 values.reverse = n := by
  induction n using Nat.strongRecOn with
  | ind n ih =>
    by_cases small : n < 10
    · refine ⟨[n], ?_, Nat.ofDigits_singleton⟩
      rw [Nat.toDigits_of_lt_base small]
      exact .cons ⟨small, .inl rfl⟩ .nil
    · obtain ⟨values, digits, worth⟩ := ih (n / 10) (by omega)
      have last : IsDigit 10 (n % 10).digitChar (n % 10) := ⟨Nat.mod_lt n (by decide), .inl rfl⟩
      refine ⟨values ++ [n % 10], ?_, ?_⟩
      · rw [Nat.toDigits_of_base_le (by decide) (by omega)]
        exact List.rel_append digits (.cons last .nil)
      · rw [List.reverse_append, List.reverse_singleton, List.singleton_append, Nat.ofDigits_cons,
          worth]
        exact Nat.mod_add_div n 10

namespace Numeral

/-- What digits that stand for a number are read as. -/
def bounded (text : String) (n : Nat) : Except LexicalCause Nat :=
  if n < integerBound then .ok n else .error (.integerOverflow text)

/-- Digits are read as the number that they and those in front of them stand for. -/
theorem readInteger_eq {base n value : Nat} {digits : List Char} {values : List Nat} (text : String)
    (small : base ≤ 16) (spelled : IsDigits base digits values) (start : value < integerBound)
    (worth : value * base ^ values.length + Nat.ofDigits base values.reverse = n) :
    readInteger text base value digits = bounded text n := by
  induction spelled generalizing value with
  | nil =>
    have same : value = n := by simpa using worth
    rw [bounded, ← same, if_pos start]
    rfl
  | @cons c d digits values digit _ ih =>
    have worth :
        (value * base + d) * base ^ values.length + Nat.ofDigits base values.reverse = n := by
      rw [← worth, List.reverse_cons, Nat.ofDigits_append, Nat.ofDigits_singleton,
        List.length_reverse, List.length_cons]
      ring
    rw [readInteger, digit.isDigitOf small, if_pos rfl, digit.digitValue? small]
    change (if value * base + d < integerBound then _ else _) = _
    by_cases fits : value * base + d < integerBound
    · rw [if_pos fits]
      exact ih fits worth
    · -- Further digits only add to the value, so it stays beyond the bound.
      have positive : 0 < base := Nat.zero_lt_of_lt digit.1
      have more := Nat.le_mul_of_pos_right (value * base + d)
        (Nat.pow_pos positive : 0 < base ^ values.length)
      rw [if_neg fits, bounded, if_neg (by omega)]

end Numeral

end ProtoSchema
