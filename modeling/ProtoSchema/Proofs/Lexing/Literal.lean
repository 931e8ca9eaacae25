import ProtoSchema.Proofs.Lexing.Digits
import ProtoSchema.Proofs.Lexing.Spelling
import ProtoSchema.Text.Quoted

/-!
# Quoted literals read back

Texts and bytes between quotes are read back as the bytes that they were written for, whatever
stands behind the closing quote.
-/

namespace ProtoSchema

open Quoted

/-! ### The body of a literal -/

namespace Literal

/-- A text that stands for these bytes inside of double quotes. -/
def IsBodyOf (text : List Char) (bytes : List UInt8) : Prop :=
  ∀ rest, scanBody '"' (text ++ rest) =
    (scanBody '"' rest).behind text (Option.map (bytes ++ ·))

private theorem behind_behind {α β γ : Type} (s : Scan α) (front front' : List Char) (f : α → β)
    (g : β → γ) : (s.behind front' f).behind front g = s.behind (front ++ front') (g ∘ f) := by
  unfold Scan.behind
  cases s.outcome <;> simp

private theorem map_append_comp (b b' : List UInt8) :
    Option.map (b ++ ·) ∘ Option.map (b' ++ ·) = Option.map ((b ++ b') ++ ·) := by
  funext bytes
  cases bytes <;> simp

theorem isBodyOf_nil : IsBodyOf [] [] := by
  intro rest
  have same : (Option.map fun bytes : List UInt8 => [] ++ bytes) = id := by
    funext bytes
    cases bytes <;> rfl
  unfold Scan.behind
  rw [same]
  cases h : (scanBody '"' rest) with
  | mk outcome taken left => cases outcome <;> simp [h]

theorem IsBodyOf.append {text text' : List Char} {bytes bytes' : List UInt8}
    (first : IsBodyOf text bytes) (second : IsBodyOf text' bytes') :
    IsBodyOf (text ++ text') (bytes ++ bytes') := by
  intro rest
  rw [List.append_assoc, first, second, behind_behind, map_append_comp]

theorem isBodyOf_flatMap {α : Type} {write : α → List Char} {read : α → List UInt8} {xs : List α}
    (each : ∀ x ∈ xs, IsBodyOf (write x) (read x)) :
    IsBodyOf (xs.flatMap write) (xs.flatMap read) := by
  induction xs with
  | nil => exact isBodyOf_nil
  | cons x xs ih =>
    obtain ⟨first, rest⟩ := List.forall_mem_cons.mp each
    exact first.append (ih rest)

/-- A character that is neither escaped nor ends the literal stands for itself. -/
theorem isBodyOf_char {c : Char} (noNewline : c ≠ '\n') (noQuote : c ≠ '"') (noEscape : c ≠ '\\') :
    IsBodyOf [c] (String.utf8EncodeChar c) := by
  intro rest
  simp only [List.singleton_append]
  rw [scanBody, if_neg noNewline, if_neg noQuote, if_neg noEscape]

/-- What is read as an escape goes in front of what is read behind it. -/
theorem scanBody_escape {quote : Char} {cs taken after : List Char} {byte : UInt8}
    (noQuote : '\\' ≠ quote) (escape : Escape.scan cs = .found byte taken after) :
    scanBody quote ('\\' :: cs) =
      (scanBody quote after).behind ('\\' :: taken) (Option.map (byte :: ·)) := by
  rw [scanBody, if_neg (by decide), if_neg noQuote, if_pos rfl]
  split
  next byte' taken' after' found =>
    cases escape.symm.trans found
    rfl
  next fault taken' after' found => cases escape.symm.trans found

/-- An escape stands for its byte. -/
theorem isBodyOf_escape {text : List Char} {byte : UInt8}
    (escape : ∀ rest, Escape.scan (text ++ rest) = .found byte text rest) :
    IsBodyOf ('\\' :: text) [byte] :=
  fun rest => scanBody_escape (by decide) (escape rest)

theorem isFirmSpelling_enclose {body : List Char} {bytes : List UInt8} (h : IsBodyOf body bytes) :
    IsFirmSpelling (enclose body) (.str bytes) := by
  refine ⟨nofun, fun rest => ?_⟩
  have whole : scanBody '"' (body ++ '"' :: rest) = .found (some bytes) (body ++ ['"']) rest := by
    have closing : scanBody '"' ('"' :: rest) = .found (some []) ['"'] rest := by
      rw [scanBody, if_neg (by decide), if_pos rfl]
    rw [h, closing]
    simp [Scan.behind, Scan.found]
  have start : enclose body ++ rest = '"' :: (body ++ '"' :: rest) := by simp [enclose]
  rw [start, Token.scan]
  simp [Mark.ofChar?, scan, whole, Scan.behind, Scan.found, enclose]

end Literal

/-! ### Characters and bytes -/

namespace Quoted

open Literal

/-- A character below 128 is one byte. -/
theorem utf8EncodeChar_of_lt {c : Char} (h : c.toNat < 128) :
    String.utf8EncodeChar c = [UInt8.ofNat c.toNat] :=
  if_pos (Nat.le_of_lt_succ h)

theorem toNat_ofNat_toNat (byte : UInt8) : (Char.ofNat byte.toNat).toNat = byte.toNat := by
  have small : byte.toNat < 256 := byte.toNat_lt
  have valid : byte.toNat.isValidChar := .inl (by omega)
  rw [Char.ofNat, dif_pos valid]
  rfl

/-- The character of a byte below 128 is that byte. -/
private theorem utf8EncodeChar_ofNat {byte : UInt8} (h : byte.toNat < 128) :
    String.utf8EncodeChar (Char.ofNat byte.toNat) = [byte] := by
  have same := toNat_ofNat_toNat byte
  rw [utf8EncodeChar_of_lt (by omega), same, UInt8.ofNat_toNat]

theorem isBodyOf_escape? {c : Char} {text : List Char} (h : escape? c = some text) :
    IsBodyOf text (String.utf8EncodeChar c) := by
  unfold escape? at h
  split at h <;> cases h
  all_goals exact isBodyOf_escape fun _ => rfl

private theorem ne_of_escape?_eq_none {c : Char} (h : escape? c = none) :
    c ≠ '\n' ∧ c ≠ '"' ∧ c ≠ '\\' := by
  refine ⟨?_, ?_, ?_⟩ <;> rintro rfl <;> cases h

theorem scan_hexDigits {n : Nat} (h : n < 256) (rest : List Char) :
    Escape.scan ('x' :: hexDigits n ++ rest) = .found (UInt8.ofNat n) ('x' :: hexDigits n) rest := by
  have high : isDigitOf 16 (n / 16).digitChar = true := by
    simpa [isDigitOf_digitChar 16 (n := n / 16) (by omega)] using (by omega)
  have low : isDigitOf 16 (n % 16).digitChar = true := by
    simpa [isDigitOf_digitChar 16 (n := n % 16) (by omega)] using (by omega)
  have value : digitsValue 16 (hexDigits n) = n := by
    simp only [digitsValue, hexDigits, List.foldl_cons, List.foldl_nil,
      digitValue?_digitChar (n := n / 16) (by omega), digitValue?_digitChar (n := n % 16) (by omega),
      Option.getD_some]
    omega
  have taken : Escape.digits 16 2 (hexDigits n ++ rest) = hexDigits n := by
    simp [Escape.digits, hexDigits, high, low]
  simp [Escape.scan, Escape.simple?, taken, value]
  simp [hexDigits]

theorem isBodyOf_textChar (c : Char) : IsBodyOf (textChar c) (String.utf8EncodeChar c) := by
  unfold textChar
  split
  next text found => exact isBodyOf_escape? found
  next none =>
    split
    next control =>
      rw [utf8EncodeChar_of_lt (by omega)]
      exact isBodyOf_escape (scan_hexDigits (by omega))
    next =>
      obtain ⟨noNewline, noQuote, noEscape⟩ := ne_of_escape?_eq_none none
      exact isBodyOf_char noNewline noQuote noEscape

theorem scan_octalDigits {n : Nat} (h : n < 256) (rest : List Char) :
    Escape.scan (octalDigits n ++ rest) = .found (UInt8.ofNat n) (octalDigits n) rest := by
  have octal (d : Nat) (small : d < 8) : isDigitOf 8 d.digitChar = true := by
    simpa [isDigitOf_digitChar 8 (n := d) (by omega)] using small
  have first := octal (n / 64) (by omega)
  have second := octal (n / 8 % 8) (by omega)
  have third := octal (n % 8) (by omega)
  have value : digitsValue 8 (octalDigits n) = n := by
    simp only [digitsValue, octalDigits, List.foldl_cons, List.foldl_nil,
      digitValue?_digitChar (n := n / 64) (by omega), digitValue?_digitChar (n := n / 8 % 8) (by omega),
      digitValue?_digitChar (n := n % 8) (by omega), Option.getD_some]
    omega
  have taken : Escape.digits 8 2 ((n / 8 % 8).digitChar :: (n % 8).digitChar :: rest) =
      [(n / 8 % 8).digitChar, (n % 8).digitChar] := by
    simp [Escape.digits, second, third]
  have plain (d : Nat) (small : d < 8) : Escape.simple? d.digitChar = none ∧ d.digitChar ≠ 'x' ∧
      d.digitChar ≠ 'X' := by
    have all : ∀ d < 8, Escape.simple? d.digitChar = none ∧ d.digitChar ≠ 'x' ∧
      d.digitChar ≠ 'X' := by decide
    exact all d small
  obtain ⟨noLetter, noHex, noHex'⟩ := plain (n / 64) (by omega)
  have inRange : ¬ 255 < n := by omega
  unfold octalDigits at value ⊢
  simp only [List.cons_append, List.nil_append, Escape.scan, noLetter, noHex, noHex', or_self,
    if_false, first, if_true, taken, value, inRange]
  rfl

/-- What has an escape of its own in every spelling stands for its byte, which is below 128. -/
private theorem isBodyOf_escape?_byte {byte : UInt8} {text : List Char}
    (found : escape? (Char.ofNat byte.toNat) = some text) : IsBodyOf text [byte] := by
  have small : byte.toNat < 128 := by
    rw [← toNat_ofNat_toNat]
    unfold escape? at found
    split at found <;> first | (cases found; done) | simp_all
  rw [← utf8EncodeChar_ofNat small]
  exact isBodyOf_escape? found

/-- A byte that prints as itself and needs no escape stands for itself. -/
private theorem isBodyOf_printable {byte : UInt8} {c : Char}
    (none : escape? (Char.ofNat byte.toNat) = none) (printable : printable? byte = some c) :
    IsBodyOf [c] [byte] := by
  unfold printable? at printable
  split at printable
  next bounds =>
    cases printable
    have small : byte.toNat < 128 := Nat.lt_of_le_of_lt bounds.2 (by decide)
    obtain ⟨noNewline, noQuote, noEscape⟩ := ne_of_escape?_eq_none none
    have whole := isBodyOf_char noNewline noQuote noEscape
    rwa [utf8EncodeChar_ofNat small] at whole
  next => cases printable

theorem isBodyOf_byteChars (byte : UInt8) : IsBodyOf (byteChars byte) [byte] := by
  unfold byteChars
  split
  next text found => exact isBodyOf_escape?_byte found
  next none =>
    split
    next c printable => exact isBodyOf_printable none printable
    next =>
      have whole := isBodyOf_escape (scan_octalDigits byte.toNat_lt)
      rwa [UInt8.ofNat_toNat] at whole

theorem isBodyOf_shownChars (byte : UInt8) : IsBodyOf (shownChars byte) [byte] := by
  unfold shownChars
  split
  next text found => exact isBodyOf_escape?_byte found
  next none =>
    split
    next printable =>
      -- The single quote prints as itself and is escaped all the same.
      have quote : byte = 0x27 := by
        unfold printable? at printable
        split at printable
        next =>
          have code := congrArg Char.toNat (Option.some.inj printable)
          rw [toNat_ofNat_toNat] at code
          exact UInt8.toNat_inj.mp code
        next => cases printable
      subst quote
      exact isBodyOf_escape fun _ => rfl
    next c _ printable => exact isBodyOf_printable none printable
    next =>
      have whole := isBodyOf_escape (scan_hexDigits byte.toNat_lt)
      rwa [UInt8.ofNat_toNat] at whole

end Quoted

/-- A text is read back from its literal. -/
theorem isFirmSpelling_text (s : List Char) : IsFirmSpelling (Quoted.text s) (.str (Utf8.encode s)) :=
  Literal.isFirmSpelling_enclose (Literal.isBodyOf_flatMap fun c _ => Quoted.isBodyOf_textChar c)

/-- Bytes are read back from a literal in which each of them is written on its own. -/
private theorem isFirmSpelling_of_each {write : UInt8 → List Char}
    (each : ∀ byte, Literal.IsBodyOf (write byte) [byte]) (b : List UInt8) :
    IsFirmSpelling (Quoted.enclose (b.flatMap write)) (.str b) := by
  have whole : Literal.IsBodyOf (b.flatMap write) (b.flatMap fun byte => [byte]) :=
    Literal.isBodyOf_flatMap fun byte _ => each byte
  rw [List.flatMap_singleton'] at whole
  exact Literal.isFirmSpelling_enclose whole

/-- Bytes are read back from their literal. -/
theorem isFirmSpelling_bytes (b : List UInt8) : IsFirmSpelling (Quoted.bytes b) (.str b) :=
  isFirmSpelling_of_each Quoted.isBodyOf_byteChars b

/-- Bytes are read back from the literal that messages show. -/
theorem isFirmSpelling_shown (b : List UInt8) : IsFirmSpelling (Quoted.shown b) (.str b) :=
  isFirmSpelling_of_each Quoted.isBodyOf_shownChars b

end ProtoSchema
