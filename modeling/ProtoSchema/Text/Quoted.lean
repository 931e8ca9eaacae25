/-!
# Quoted literals

Three spellings of a literal between double quotes: a text, whose characters stand for themselves
wherever they can; bytes, in printable ASCII and octal escapes; and bytes as error messages show
them, in printable ASCII and hexadecimal escapes.
-/

namespace ProtoSchema.Quoted

/-- A byte as two hexadecimal digits in lower case. -/
def hexDigits (n : Nat) : List Char :=
  [Nat.digitChar (n / 16), Nat.digitChar (n % 16)]

/-- A byte as three octal digits. -/
def octalDigits (n : Nat) : List Char :=
  [Nat.digitChar (n / 64), Nat.digitChar (n / 8 % 8), Nat.digitChar (n % 8)]

/-- The escape for a character that has one in every spelling. -/
def escape? (c : Char) : Option (List Char) :=
  match c with
  | '"' => some ['\\', '"']
  | '\\' => some ['\\', '\\']
  | '\n' => some ['\\', 'n']
  | '\r' => some ['\\', 'r']
  | '\t' => some ['\\', 't']
  | _ => none

/-- The ASCII character of a byte that prints as itself. -/
def printable? (byte : UInt8) : Option Char :=
  if 0x20 ≤ byte ∧ byte ≤ 0x7e then some (Char.ofNat byte.toNat) else none

/-- A character of a text: control characters are escaped. -/
def textChar (c : Char) : List Char :=
  match escape? c with
  | some spelling => spelling
  | none => if c.toNat < 0x20 then '\\' :: 'x' :: hexDigits c.toNat else [c]

/-- A byte of a literal that need not be text: what does not print is three octal digits. -/
def byteChars (byte : UInt8) : List Char :=
  match escape? (Char.ofNat byte.toNat) with
  | some spelling => spelling
  | none =>
    match printable? byte with
    | some c => [c]
    | none => '\\' :: octalDigits byte.toNat

/-- A byte as messages show it: both quotes are escaped and what does not print is hexadecimal. -/
def shownChars (byte : UInt8) : List Char :=
  match escape? (Char.ofNat byte.toNat) with
  | some spelling => spelling
  | none =>
    match printable? byte with
    | some '\'' => ['\\', '\'']
    | some c => [c]
    | none => '\\' :: 'x' :: hexDigits byte.toNat

/-- Double quotes around a spelling. -/
def enclose (body : List Char) : List Char :=
  '"' :: body ++ ['"']

/-- The literal of a text. -/
def text (s : List Char) : List Char :=
  enclose (s.flatMap textChar)

/-- The literal of some bytes. -/
def bytes (b : List UInt8) : List Char :=
  enclose (b.flatMap byteChars)

/-- The literal of some bytes as messages show it. -/
def shown (b : List UInt8) : List Char :=
  enclose (b.flatMap shownChars)

end ProtoSchema.Quoted
