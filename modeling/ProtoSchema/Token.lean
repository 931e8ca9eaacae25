import ProtoSchema.Number.Layout
import ProtoSchema.Text.Position
import ProtoSchema.Text.Quoted

/-!
# Tokens

The words of a schema text. Keywords are identifiers of a certain spelling, so that they stay usable
as names; a literal keeps its bytes, which need not be text.
-/

namespace ProtoSchema

/-- The punctuation marks. -/
inductive Mark where
  | openBrace
  | closeBrace
  | openParen
  | closeParen
  | openBracket
  | closeBracket
  | semicolon
  | equals
  | comma
  | less
  | greater
  | colon
  deriving DecidableEq, Repr

namespace Mark

/-- The character of a mark. -/
def char : Mark → Char
  | openBrace => '{'
  | closeBrace => '}'
  | openParen => '('
  | closeParen => ')'
  | openBracket => '['
  | closeBracket => ']'
  | semicolon => ';'
  | equals => '='
  | comma => ','
  | less => '<'
  | greater => '>'
  | colon => ':'

/-- The mark that a character is. -/
def ofChar? : Char → Option Mark
  | '{' => some openBrace
  | '}' => some closeBrace
  | '(' => some openParen
  | ')' => some closeParen
  | '[' => some openBracket
  | ']' => some closeBracket
  | ';' => some semicolon
  | '=' => some equals
  | ',' => some comma
  | '<' => some less
  | '>' => some greater
  | ':' => some colon
  | _ => none

theorem ofChar?_char (m : Mark) : ofChar? m.char = some m := by
  cases m <;> rfl

theorem char_of_ofChar? {c : Char} {m : Mark} (h : ofChar? c = some m) : m.char = c := by
  unfold ofChar? at h
  split at h <;> cases h <;> rfl

/-- A mark between single quotes, as error messages show it. -/
def text (m : Mark) : String :=
  "'" ++ m.char.toString ++ "'"

end Mark

/-- The words of the grammar. -/
inductive Keyword where
  | syntaxWord
  | packageWord
  | importWord
  | publicWord
  | optionWord
  | messageWord
  | enumWord
  | extendWord
  | extensionsWord
  | serviceWord
  | rpcWord
  | returnsWord
  | requiredWord
  | optionalWord
  | repeatedWord
  | toWord
  | maxWord
  deriving DecidableEq, Repr

namespace Keyword

/-- How a keyword is written. -/
def spelling : Keyword → String
  | syntaxWord => "syntax"
  | packageWord => "package"
  | importWord => "import"
  | publicWord => "public"
  | optionWord => "option"
  | messageWord => "message"
  | enumWord => "enum"
  | extendWord => "extend"
  | extensionsWord => "extensions"
  | serviceWord => "service"
  | rpcWord => "rpc"
  | returnsWord => "returns"
  | requiredWord => "required"
  | optionalWord => "optional"
  | repeatedWord => "repeated"
  | toWord => "to"
  | maxWord => "max"

/-- Every keyword once. -/
def all : List Keyword :=
  [syntaxWord, packageWord, importWord, publicWord, optionWord, messageWord, enumWord, extendWord,
    extensionsWord, serviceWord, rpcWord, returnsWord, requiredWord, optionalWord, repeatedWord,
    toWord, maxWord]

/-- The keyword that an identifier spells. -/
def ofSpelling? (name : String) : Option Keyword :=
  all.find? (·.spelling = name)

theorem ofSpelling?_spelling (k : Keyword) : ofSpelling? k.spelling = some k := by
  cases k <;> simp [ofSpelling?, all, spelling]

theorem spelling_of_ofSpelling? {name : String} {k : Keyword} (h : ofSpelling? name = some k) :
    k.spelling = name := by
  simpa using List.find?_some h

end Keyword

/-- A word of a schema text. -/
inductive Token where
  | mark (m : Mark)
  | ident (name : String)
  | int (n : Int)
  | float (x : Binary64)
  | str (bytes : List UInt8)
  | eof
  deriving DecidableEq, Repr

namespace Token

/-- The keyword that a token spells, if it is an identifier that spells one. -/
def keyword? : Token → Option Keyword
  | ident name => Keyword.ofSpelling? name
  | _ => none

/-- Error messages write floating-point numbers positionally and as short as possible. -/
def floatLayout : FloatLayout where
  tie := .up
  positional := none
  wholeFraction := false
  plusSign := false

/-- A token as error messages show it. -/
def text : Token → String
  | mark m => m.text
  | ident name => "identifier '" ++ name ++ "'"
  | int n => "integer " ++ toString n
  | float x => "float " ++ String.ofList (floatLayout.text x)
  | str bytes => "string " ++ String.ofList (Quoted.shown bytes)
  | eof => "end of input"

end Token

/-- A token at its place, with the documentation in front of it. -/
structure Located where
  token : Token
  position : Position
  doc : Option String
  deriving DecidableEq, Repr

end ProtoSchema
