import Mathlib.Data.List.DropRight
import ProtoSchema.Text.Position
import ProtoSchema.Text.Utf8

/-!
# What positions say

A position is that of the end of a stretch of text if its offset is the length of the stretch in
bytes, its line counts the line feeds in it and its column the characters behind the last of them.
`Position.advance` finds it character by character; the bytes of a text may also be looked at as a
whole, which gives the same line and column.
-/

namespace ProtoSchema

namespace Position

/-! ### Offsets -/

theorem offset_after (p : Position) (c : Char) :
    (p.after c).offset = p.offset + c.utf8Size := by
  unfold after
  split
  next newline =>
    subst newline
    rfl
  next => rfl

/-- The offset counts the bytes of the text. -/
theorem offset_advance (p : Position) (text : List Char) :
    (p.advance text).offset = p.offset + (Utf8.encode text).length := by
  induction text generalizing p with
  | nil => rfl
  | cons c text ih =>
    rw [advance_cons, ih, offset_after, Utf8.encode_cons, List.length_append,
      String.length_utf8EncodeChar]
    omega

theorem offset_le_advance (p : Position) (text : List Char) :
    p.offset ≤ (p.advance text).offset := by
  rw [offset_advance]
  omega

theorem offset_lt_advance (p : Position) {text : List Char} (nonempty : text ≠ []) :
    p.offset < (p.advance text).offset := by
  obtain ⟨c, text, rfl⟩ := List.exists_cons_of_ne_nil nonempty
  have := c.utf8Size_pos
  have := offset_le_advance (p.after c) text
  rw [advance_cons]
  rw [offset_after] at this
  omega

/-! ### Lines and columns -/

/-- The byte of a line feed. -/
def lineFeed : UInt8 := 0x0a

/-- A position is that of the end of a text: its offset is the number of bytes, its line one more
than the number of line feeds among them, and its column one more than the number of characters
behind the last of these. -/
structure IsBehind (p : Position) (front : List Char) : Prop where
  offset_eq : p.offset = (Utf8.encode front).length
  line_eq : p.line = 1 + (Utf8.encode front).count lineFeed
  column_eq : p.column = 1 + (front.rtakeWhile (· ≠ '\n')).length

/-- A position is exact in some bytes: in front of it there are whole characters, and it is that of
their end. -/
def IsExactIn (p : Position) (bytes : List UInt8) : Prop :=
  ∃ front, Utf8.encode front <+: bytes ∧ p.IsBehind front

/-- No character but the line feed has its byte. -/
theorem count_lineFeed (c : Char) :
    (String.utf8EncodeChar c).count lineFeed = if c = '\n' then 1 else 0 := by
  split
  next newline =>
    subst newline
    rfl
  next other =>
    have differs : c.val.toNat ≠ 10 := by
      intro same
      apply other
      apply Char.ext
      exact UInt32.toNat_inj.mp same
    have byte (n : Nat) (range : n < 256) (h : n ≠ 10) : UInt8.ofNat n ≠ lineFeed := by
      intro same
      have := congrArg UInt8.toNat same
      rw [UInt8.toNat_ofNat', Nat.mod_eq_of_lt range] at this
      exact h this
    apply List.count_eq_zero.mpr
    intro member
    unfold String.utf8EncodeChar at member
    simp only at member
    -- The bytes of the longer forms are at least 128.
    repeat' split at member
    all_goals simp only [List.mem_cons, List.not_mem_nil, or_false] at member
    · exact byte _ (by omega) differs member.symm
    · rcases member with h | h <;> exact byte _ (by omega) (by omega) h.symm
    · rcases member with h | h | h <;> exact byte _ (by omega) (by omega) h.symm
    · rcases member with h | h | h | h <;> exact byte _ (by omega) (by omega) h.symm

theorem line_after (p : Position) (c : Char) :
    (p.after c).line = p.line + (String.utf8EncodeChar c).count lineFeed := by
  rw [count_lineFeed]
  unfold after
  split <;> rfl

/-- One character further on. -/
theorem IsBehind.after {p : Position} {front : List Char} (h : p.IsBehind front) (c : Char) :
    (p.after c).IsBehind (front ++ [c]) where
  offset_eq := by
    rw [offset_after, h.offset_eq, Utf8.encode_append, List.length_append, Utf8.encode_cons,
      Utf8.encode_nil, List.append_nil, String.length_utf8EncodeChar]
  line_eq := by
    rw [line_after, h.line_eq, Utf8.encode_append, List.count_append, Utf8.encode_cons,
      Utf8.encode_nil, List.append_nil, Nat.add_assoc]
  column_eq := by
    rw [List.rtakeWhile_concat]
    unfold Position.after
    by_cases newline : c = '\n'
    · simp [newline]
    · simp [newline, h.column_eq, Nat.add_assoc]

/-- The place that is reached from the start by going through a text is that of its end. -/
theorem isBehind_advance (front : List Char) : (start.advance front).IsBehind front := by
  induction front using List.reverseRecOn with
  | nil => exact ⟨rfl, rfl, rfl⟩
  | append_singleton front c ih =>
    rw [advance_append]
    exact ih.after c

theorem isExactIn_encode {p : Position} {front text : List Char} (place : p = start.advance front)
    (leading : front <+: text) : p.IsExactIn (Utf8.encode text) := by
  obtain ⟨back, rfl⟩ := leading
  subst place
  exact ⟨front, ⟨Utf8.encode back, (Utf8.encode_append front back).symm⟩, isBehind_advance front⟩

end Position

/-! ### The longest text at the beginning of some bytes -/

namespace Utf8

theorem extract_toByteArray_append (front bytes : List UInt8) :
    (front ++ bytes).toByteArray.extract front.length (front ++ bytes).toByteArray.size =
      bytes.toByteArray := by
  rw [List.toByteArray_append]
  apply ByteArray.extract_append_eq_right
  · exact List.size_toByteArray.symm
  · exact ByteArray.size_append

/-- A character is read exactly where its bytes are. -/
theorem utf8DecodeChar?_eq_some_iff {front bytes : List UInt8} {c : Char} :
    (front ++ bytes).toByteArray.utf8DecodeChar? front.length = some c ↔
      String.utf8EncodeChar c <+: bytes := by
  rw [ByteArray.utf8DecodeChar?_eq_utf8DecodeChar?_extract, extract_toByteArray_append]
  constructor
  · intro found
    obtain ⟨more, same⟩ := ByteArray.exists_of_utf8DecodeChar?_eq_some found
    refine ⟨more.data.toList, ?_⟩
    have bytes := congrArg (fun b => b.data.toList) same
    simpa using bytes.symm
  · rintro ⟨more, rfl⟩
    rw [List.toByteArray_append]
    exact ByteArray.utf8DecodeChar?_utf8EncodeChar_append

/-- What can be read from a place on is the longest text whose bytes stand there. -/
private theorem validPrefix_spec (front bytes : List UInt8) :
    encode (validPrefix (front ++ bytes).toByteArray front.length) <+: bytes ∧
      ∀ text, encode text <+: bytes →
        text <+: validPrefix (front ++ bytes).toByteArray front.length := by
  induction length : bytes.length using Nat.strong_induction_on generalizing front bytes with
  | _ n ih =>
    rw [validPrefix.eq_def]
    split
    next none =>
      refine ⟨List.nil_prefix, fun text leading => ?_⟩
      cases text with
      | nil => exact List.nil_prefix
      | cons c text =>
        have first : (front ++ bytes).toByteArray.utf8DecodeChar? front.length = some c :=
          utf8DecodeChar?_eq_some_iff.mpr ((List.prefix_append _ _).trans leading)
        cases none.symm.trans first
    next c found =>
      obtain ⟨more, rfl⟩ := utf8DecodeChar?_eq_some_iff.mp found
      have positive := c.utf8Size_pos
      have size := String.length_utf8EncodeChar c
      rw [List.length_append] at length
      -- Behind the character the same is known of fewer bytes.
      obtain ⟨leading, longest⟩ := ih more.length (by omega) (front ++ String.utf8EncodeChar c) more
        rfl
      rw [List.append_assoc, List.length_append, size] at leading longest
      constructor
      · rw [encode_cons]
        exact (List.prefix_append_right_inj _).mpr leading
      · intro text stands
        cases text with
        | nil => exact List.nil_prefix
        | cons d text =>
          have first : (front ++ (String.utf8EncodeChar c ++ more)).toByteArray.utf8DecodeChar?
              front.length = some d :=
            utf8DecodeChar?_eq_some_iff.mpr ((List.prefix_append _ _).trans stands)
          cases found.symm.trans first
          rw [encode_cons, List.prefix_append_right_inj] at stands
          exact List.cons_prefix_cons.mpr ⟨rfl, longest text stands⟩

theorem encode_validPrefix (bytes : List UInt8) :
    encode (validPrefix bytes.toByteArray 0) <+: bytes :=
  (validPrefix_spec [] bytes).1

theorem prefix_validPrefix {bytes : List UInt8} {text : List Char} (h : encode text <+: bytes) :
    text <+: validPrefix bytes.toByteArray 0 :=
  (validPrefix_spec [] bytes).2 text h

/-- The bytes of a text are read to their end. -/
theorem validPrefix_encode (text : List Char) :
    validPrefix (encode text).toByteArray 0 = text := by
  obtain ⟨more, same⟩ := prefix_validPrefix (List.prefix_refl (encode text))
  have leading := encode_validPrefix (encode text)
  rw [← same, encode_append] at leading
  -- Nothing is read behind the text, for it would have bytes.
  have none : encode more = [] := by
    have := leading.length_le
    rw [List.length_append] at this
    exact List.length_eq_zero_iff.mp (by omega)
  cases more with
  | nil => rw [← same, List.append_nil]
  | cons c more =>
    rw [encode_cons, List.append_eq_nil_iff] at none
    exact absurd none.1 String.utf8EncodeChar_ne_nil

end Utf8

end ProtoSchema
