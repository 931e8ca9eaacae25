import ProtoSchema.Text.Utf8
import ProtoSchema.Token.Numeral

/-!
# String literals

How the bytes of a literal are written: characters stand for their UTF-8 bytes, escapes for one byte
each. A literal ends at its quote and may not run over the end of its line. A bad escape is a fault
at its backslash, a missing quote one at the beginning of the literal.
-/

namespace ProtoSchema

namespace Escape

/-- The byte of an escape of one character. -/
def simple? : Char → Option UInt8
  | 'a' => some 0x07
  | 'b' => some 0x08
  | 'f' => some 0x0c
  | 'n' => some 0x0a
  | 'r' => some 0x0d
  | 't' => some 0x09
  | 'v' => some 0x0b
  | '\\' => some 0x5c
  | '\'' => some 0x27
  | '"' => some 0x22
  | '?' => some 0x3f
  | _ => none

/-- The digits at the beginning of a text, at most `count`. -/
def digits (base count : Nat) (cs : List Char) : List Char :=
  (cs.take count).takeWhile (isDigitOf base)

/-- The escape at the beginning of a text that stands behind a backslash. -/
def scan : List Char → Scan UInt8
  | [] => .failed .unterminatedString [] []
  | c :: rest =>
    match simple? c with
    | some byte => .found byte [c] rest
    | none =>
      -- One or two hexadecimal digits, as many as there are.
      if c = 'x' ∨ c = 'X' then
        let hex := digits 16 2 rest
        let after := rest.drop hex.length
        if hex = [] then .failed (.invalidEscape c) [c] rest
        else .found (UInt8.ofNat (digitsValue 16 hex)) (c :: hex) after
      -- One to three octal digits, which may stand for more than a byte.
      else if isDigitOf 8 c then
        let octal := c :: digits 8 2 rest
        let after := rest.drop (digits 8 2 rest).length
        if 255 < digitsValue 8 octal then .failed (.invalidEscape c) octal after
        else .found (UInt8.ofNat (digitsValue 8 octal)) octal after
      else .failed (.invalidEscape c) [c] rest

theorem digits_append_drop (base count : Nat) (cs : List Char) :
    digits base count cs ++ cs.drop (digits base count cs).length = cs := by
  have leading : digits base count cs <+: cs :=
    (List.takeWhile_prefix _).trans (List.take_prefix _ _)
  exact List.prefix_iff_eq_append.1 leading

theorem text_scan (cs : List Char) : (scan cs).text = cs := by
  fun_cases scan cs <;> simp +zetaDelta [digits_append_drop]

theorem length_rest_scan_le (cs : List Char) : (scan cs).rest.length ≤ cs.length := by
  conv => rhs; rw [← text_scan cs]
  simp [Scan.text]

end Escape

namespace Literal

/-- The bytes up to the quote, and nothing if the line ends before it. -/
def scanBody (quote : Char) : List Char → Scan (Option (List UInt8))
  | [] => .found none [] []
  | c :: rest =>
    -- The line feed is left for what comes next.
    if c = '\n' then .found none [] (c :: rest)
    else if c = quote then .found (some []) [c] rest
    else if c = '\\' then
      match _h : Escape.scan rest with
      | ⟨.ok byte, taken, after⟩ =>
        (scanBody quote after).behind (c :: taken) (Option.map (byte :: ·))
      | ⟨.error fault, taken, after⟩ => .failed fault.cause (c :: taken) after
    else (scanBody quote rest).behind [c] (Option.map (String.utf8EncodeChar c ++ ·))
termination_by cs => cs.length
decreasing_by
  · have := Escape.length_rest_scan_le rest
    rw [_h] at this
    exact Nat.lt_succ_of_le this
  · exact Nat.lt_succ_self _

theorem text_scanBody (quote : Char) (cs : List Char) : (scanBody quote cs).text = cs := by
  fun_induction scanBody quote cs with
  | case4 rest byte taken after found _ _ ih =>
    have same : taken ++ after = rest := by simpa [found, Scan.text] using Escape.text_scan rest
    simp [ih, same]
  | case5 rest fault taken after found _ =>
    have same : taken ++ after = rest := by simpa [found, Scan.text] using Escape.text_scan rest
    simp [same]
  | _ => simp_all

/-- The literal that begins with this quote. -/
def scan (quote : Char) (rest : List Char) : Scan Token :=
  let body := (scanBody quote rest).behind [quote] id
  match body.outcome with
  | .ok (some bytes) => ⟨.ok (.str bytes), body.taken, body.rest⟩
  | .ok none => .failed .unterminatedString body.taken body.rest
  | .error fault => ⟨.error fault, body.taken, body.rest⟩

theorem text_scan (quote : Char) (rest : List Char) : (scan quote rest).text = quote :: rest := by
  have body : ((scanBody quote rest).behind [quote] id).text = quote :: rest := by
    simp [text_scanBody]
  unfold scan
  simp only [Scan.text] at body ⊢
  split <;> exact body

theorem taken_scan_ne_nil (quote : Char) (rest : List Char) : (scan quote rest).taken ≠ [] := by
  unfold scan
  simp only
  split <;> simp [Scan.behind, Scan.failed]

end Literal

end ProtoSchema
