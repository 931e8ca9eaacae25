import ProtoSchema.Proofs.Lexing.Layout
import ProtoSchema.Proofs.Lexing.Literal
import ProtoSchema.Proofs.Reading.Parse
import ProtoSchema.Proofs.Reading.Value

/-!
# Literals in several parts

A literal may be written in parts, each in one of the spellings between quotes. Its bytes are those
of all parts together, and whether they are text is decided on all of them: a character may begin in
one part and end in another.
-/

namespace ProtoSchema

open Grammar Reader

/-! ### Parts -/

/-- The ways to write bytes between quotes: if they are a text, as its characters, and in any case
byte by byte. -/
inductive IsQuoted : List UInt8 → List Char → Prop
  | text (s : List Char) : IsQuoted (Utf8.encode s) (Quoted.text s)
  | bytes (b : List UInt8) : IsQuoted b (Quoted.bytes b)
  | shown (b : List UInt8) : IsQuoted b (Quoted.shown b)

theorem IsQuoted.firm {b : List UInt8} {spelling : List Char} (h : IsQuoted b spelling) :
    IsFirmSpelling spelling (.str b) := by
  cases h with
  | text s => exact isFirmSpelling_text s
  | bytes => exact isFirmSpelling_bytes b
  | shown => exact isFirmSpelling_shown b

/-- A part of a literal: its bytes, how they are written, and the gap in front of that. -/
structure LiteralPart where
  gap : List Char
  bytes : List UInt8
  spelling : List Char
  isGap : IsGap gap
  isQuoted : IsQuoted bytes spelling

/-- What is written for a part. -/
def LiteralPart.text (p : LiteralPart) : List Char :=
  p.gap ++ p.spelling

/-- The bytes of all parts. -/
def LiteralPart.allBytes (parts : List LiteralPart) : List UInt8 :=
  parts.flatMap LiteralPart.bytes

/-- The text of all parts. -/
def LiteralPart.allText (parts : List LiteralPart) : List Char :=
  parts.flatMap LiteralPart.text

/-! ### What the lexer reads -/

namespace Lexer

variable {l after : Lexer} {rest : List Char} {parts : List LiteralPart}

/-- Up to a lexer in front of `rest`, these parts are read one after the other: each one as its
bytes, behind its gap and up to its closing quote. -/
inductive ReadsParts (rest : List Char) : Lexer → List LiteralPart → Lexer → Prop
  | done {l : Lexer} : l.rest = rest → ReadsParts rest l [] l
  | part {l mid after : Lexer} {p : LiteralPart} {parts : List LiteralPart} {doc : Option String} :
      l.next = (.ok ⟨.str p.bytes, l.position.advance p.gap, doc⟩, mid) →
      mid.rest = LiteralPart.allText parts ++ rest → mid.position = l.position.advance p.text →
      ReadsParts rest mid parts after → ReadsParts rest l (p :: parts) after

/-- Whatever follows a part, the part is read and nothing else is. -/
theorem next_of_part {p : LiteralPart} (whole : l.rest = p.text ++ rest) :
    ∃ doc, l.next = (.ok ⟨.str p.bytes, l.position.advance p.gap, doc⟩,
      ⟨l.config, rest, l.position.advance p.text, true⟩) :=
  ⟨_, next_of_gap p.isGap (by rw [whole, LiteralPart.text, List.append_assoc])
    (p.isQuoted.firm.2 rest)⟩

theorem exists_readsParts (whole : l.rest = LiteralPart.allText parts ++ rest) :
    ∃ after, l.ReadsParts rest parts after := by
  induction parts generalizing l with
  | nil => exact ⟨l, .done whole⟩
  | cons p parts ih =>
    rw [LiteralPart.allText, List.flatMap_cons, List.append_assoc] at whole
    obtain ⟨doc, next⟩ := next_of_part whole
    obtain ⟨after, reads⟩ := @ih ⟨l.config, _, l.position.advance p.text, true⟩ rfl
    exact ⟨after, .part next rfl rfl reads⟩

/-- The tokens of a lexer begin with those of the parts. -/
theorem ReadsParts.run (h : l.ReadsParts rest parts after) :
    after.rest = rest ∧ ∃ used, l.run = ⟨used ++ after.run.tokens, after.run.ending⟩ ∧
      used.map Located.token = parts.map fun p => .str p.bytes := by
  induction h with
  | done same => exact ⟨same, [], rfl, rfl⟩
  | @part l mid after p parts doc next _ _ _ ih =>
    obtain ⟨same, used, run, tokens⟩ := ih
    refine ⟨same, ⟨.str p.bytes, l.position.advance p.gap, doc⟩ :: used, ?_, ?_⟩
    · rw [run_of_next next nofun, run]
      rfl
    · rw [List.map_cons, List.map_cons, tokens]

end Lexer

/-! ### What is read as a value -/

/-- Tokens for parts are the words of a literal. -/
theorem isLiteral_of_tokens {parts : List LiteralPart} {used : List Located} (nonempty : parts ≠ [])
    (tokens : used.map Located.token = parts.map fun p => .str p.bytes) :
    IsLiteral (used.map Located.word) (LiteralPart.allBytes parts) := by
  induction parts generalizing used with
  | nil => exact absurd rfl nonempty
  | cons p parts ih =>
    obtain ⟨⟨_, _, doc⟩, later, rfl, rfl, tokens'⟩ := List.map_eq_cons_iff.mp tokens
    cases parts with
    | nil =>
      obtain rfl := List.map_eq_nil_iff.mp tokens'
      have single : LiteralPart.allBytes [p] = p.bytes := List.append_nil p.bytes
      rw [single]
      exact .last
    | cons q parts => exact .more (ih nofun tokens')

/-- What comes next in a lexer is the next token of the text in front of it. -/
theorem Lexer.sees_of_next {l behind : Lexer} {config : DocConfig} {t : Located}
    {p : Token → Prop} (next : (Lexer.ofText config l.rest).next = (.ok t, behind))
    (holds : p t.token) : Sees p l.run.ending l.run.tokens := by
  have found : (firstScan l.rest).outcome = .ok t.token :=
    firstScan_of_next (l := ofText config l.rest) next
  by_cases atEnd : t.token = .eof
  · rw [atEnd] at found
    rw [run_of_eof found]
    exact ⟨_, rfl, atEnd ▸ holds⟩
  · rw [run_of_token found atEnd]
    exact ⟨_, rfl, holds⟩

/-- The bytes of a text, which is to say valid UTF-8. -/
def Utf8.IsText (b : List UInt8) : Prop :=
  ∃ text : List Char, b = encode text

namespace Reading

theorem bytes?_valueOfBytes (b : List UInt8) : (valueOfBytes b).bytes? = some b := by
  unfold valueOfBytes
  split
  next s decoded => rw [Value.bytes?, ← Utf8.decode?_eq_some_iff.mp decoded]
  next => rfl

/-- Bytes that are a text are read as one, and others as they are. -/
theorem valueOfBytes_cases (b : List UInt8) :
    (Utf8.IsText b ∧ ∃ s, valueOfBytes b = .str s) ∨
      (¬ Utf8.IsText b ∧ valueOfBytes b = .bytes b) := by
  unfold valueOfBytes
  split
  next s decoded => exact .inl ⟨⟨s.toList, Utf8.decode?_eq_some_iff.mp decoded⟩, s, rfl⟩
  next none =>
    refine .inr ⟨?_, rfl⟩
    rintro ⟨text, rfl⟩
    have decoded := Utf8.decode?_encode (String.ofList text)
    rw [String.toList_ofList, none] at decoded
    cases decoded

/-- A literal in parts is read as a value of its bytes, which is a text exactly if all of them
together are. Each part is read up to its closing quote, and nothing behind the last one is. -/
theorem value_of_parts {l : Lexer} {parts : List LiteralPart} {rest : List Char}
    {config : DocConfig} {t : Located} {behind : Lexer} (nonempty : parts ≠ [])
    (whole : l.rest = LiteralPart.allText parts ++ rest)
    (next : (Lexer.ofText config rest).next = (.ok t, behind))
    (other : ∀ bytes, t.token ≠ .str bytes) :
    ∃ after, l.ReadsParts rest parts after ∧ l.run.ending = after.run.ending ∧
      ∀ budget, ∃ v, Reads (value budget) l.run.ending l.run.tokens v after.run.tokens ∧
        v.bytes? = some (LiteralPart.allBytes parts) ∧
        ((∃ s, v = .str s) ↔ Utf8.IsText (LiteralPart.allBytes parts)) ∧
        ((∃ b, v = .bytes b) ↔ ¬ Utf8.IsText (LiteralPart.allBytes parts)) := by
  obtain ⟨after, reads⟩ := Lexer.exists_readsParts whole
  obtain ⟨same, used, run, tokens⟩ := reads.run
  have proper := (Lexer.run_isProper after).1
  -- What follows is no further part, so the literal ends with the last one.
  have ends : Sees (partOf? · = none) after.run.ending after.run.tokens := by
    rw [← same] at next
    refine Lexer.sees_of_next next ?_
    cases found : t.token with
    | str bytes => exact absurd found (other bytes)
    | _ => rfl
  have literal : ∃ ws bytes, Takes (used ++ after.run.tokens) ws after.run.tokens ∧
      IsLiteral ws bytes ∧ valueOfBytes bytes = valueOfBytes (LiteralPart.allBytes parts) :=
    ⟨_, _, ⟨used, rfl, rfl⟩, isLiteral_of_tokens nonempty tokens, rfl⟩
  refine ⟨after, reads, by rw [run], fun budget =>
    ⟨valueOfBytes (LiteralPart.allBytes parts), ?_, bytes?_valueOfBytes _, ?_⟩⟩
  · -- A literal opens no bracket, so it is read whatever the budget.
    rw [run]
    cases budget <;> exact (reads_valueWith_iff proper).mpr (.inl ⟨literal, ends⟩)
  · rcases valueOfBytes_cases (LiteralPart.allBytes parts) with ⟨isText, s, text⟩ | ⟨noText, bytes⟩
    · simp [text, isText]
    · simp [bytes, noText]

/-- The first byte of a character as an octal escape, and behind a comment the second one and an
exclamation mark. -/
def splitParts : List LiteralPart :=
  [⟨[], [0xc3], Quoted.bytes [0xc3], .nil, .bytes _⟩,
    ⟨"/* and */ ".toList, [0xa9, 0x21], Quoted.shown [0xa9, 0x21],
      @IsGap.blockComment " and ".toList [' '] (by decide) (.blank (by decide) .nil), .shown _⟩]

def splitText : List Char :=
  "\"\\303\"/* and */ \"\\xa9!\";".toList

/-- A character that is split between two literals is put together again. -/
theorem splitText_value :
    ∃ after, (Lexer.ofText {} splitText).ReadsParts [';'] splitParts after ∧
      Reads (value nestingLimit) (Lexer.ofText {} splitText).run.ending
        (Lexer.ofText {} splitText).run.tokens (.str "é!") after.run.tokens := by
  have next : (Lexer.ofText {} [';']).next =
      (.ok ⟨.mark .semicolon, .start, none⟩, ⟨{}, [], ⟨1, 2, 1⟩, true⟩) := by
    decide +kernel
  have whole : splitText = LiteralPart.allText splitParts ++ [';'] := by decide
  obtain ⟨after, reads, _, said⟩ :=
    @value_of_parts (Lexer.ofText {} splitText) splitParts [';'] _ _ _ nofun whole next nofun
  obtain ⟨v, value, bytes, text, _⟩ := said nestingLimit
  have together : LiteralPart.allBytes splitParts = Utf8.encode "é!".toList := by decide
  obtain ⟨s, rfl⟩ := text.mpr ⟨_, together⟩
  have same : s = "é!" := by
    have decoded := Utf8.decode?_encode s
    rw [Option.some.inj bytes, together, Utf8.decode?_encode] at decoded
    exact (Option.some.inj decoded).symm
  exact ⟨after, reads, same ▸ value⟩

end Reading

end ProtoSchema
