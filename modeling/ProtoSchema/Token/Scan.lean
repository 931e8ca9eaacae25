import ProtoSchema.Text.Position

/-!
# Scans

What reading a stretch of text yields: an outcome, the text that was taken for it, and the rest. A
fault knows how much of the taken text stands in front of the place it complains about.
-/

namespace ProtoSchema

/-- What can be wrong with the characters of a schema text. -/
inductive LexicalCause where
  | unterminatedString
  | unterminatedComment
  | invalidEscape (c : Char)
  | integerOverflow (text : String)
  | floatOverflow (text : String)
  | malformedNumber (text : String)
  | illegalCharacter (c : Char)
  | invalidUtf8
  deriving DecidableEq, Repr

/-- The words of an error message for a cause. -/
def LexicalCause.text : LexicalCause → String
  | unterminatedString => "unterminated string literal"
  | unterminatedComment => "unterminated block comment"
  | invalidEscape c => "invalid escape sequence '\\" ++ c.toString ++ "'"
  | integerOverflow text => "integer literal '" ++ text ++ "' is out of range"
  | floatOverflow text => "float literal '" ++ text ++ "' is out of range"
  | malformedNumber text => "malformed number '" ++ text ++ "'"
  | illegalCharacter c => "unexpected character '" ++ c.toString ++ "'"
  | invalidUtf8 => "input is not valid UTF-8"

/-- A cause at its place. -/
structure LexicalError where
  cause : LexicalCause
  position : Position
  deriving DecidableEq, Repr

/-- A cause and the text between the beginning of a scan and the place of the fault. -/
structure Fault where
  cause : LexicalCause
  before : List Char
  deriving DecidableEq, Repr

/-- The outcome of a scan, the text taken and the text left. -/
structure Scan (α : Type) where
  outcome : Except Fault α
  taken : List Char
  rest : List Char

namespace Scan

/-- A scan that found a value. -/
def found {α : Type} (value : α) (taken rest : List Char) : Scan α :=
  ⟨.ok value, taken, rest⟩

/-- A scan that failed where it began. -/
def failed {α : Type} (cause : LexicalCause) (taken rest : List Char) : Scan α :=
  ⟨.error ⟨cause, []⟩, taken, rest⟩

/-- A scan with more text in front of it, its value changed. -/
def behind {α β : Type} (front : List Char) (f : α → β) (s : Scan α) : Scan β where
  outcome :=
    match s.outcome with
    | .ok value => .ok (f value)
    | .error fault => .error { fault with before := front ++ fault.before }
  taken := front ++ s.taken
  rest := s.rest

/-- The text that a scan was given. -/
def text {α : Type} (s : Scan α) : List Char := s.taken ++ s.rest

@[simp] theorem text_found {α : Type} (value : α) (taken rest : List Char) :
    (found value taken rest).text = taken ++ rest := rfl

@[simp] theorem text_failed {α : Type} (cause : LexicalCause) (taken rest : List Char) :
    (failed cause taken rest : Scan α).text = taken ++ rest := rfl

@[simp] theorem text_behind {α β : Type} (front : List Char) (f : α → β) (s : Scan α) :
    (s.behind front f).text = front ++ s.text := by
  simp [text, behind]

end Scan

end ProtoSchema
