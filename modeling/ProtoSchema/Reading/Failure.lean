import ProtoSchema.Schema.Violation
import ProtoSchema.Token
import ProtoSchema.Token.Scan

/-!
# Failures of reading

What a reader can fail with: a fault in the characters, a token where the grammar has another, and a
declaration that breaks a rule. Each failure has a place, with which its message ends.
-/

namespace ProtoSchema

/-- A literal that must be text. -/
inductive TextRole where
  | importPath
  | version
  deriving DecidableEq, Repr

/-- What such a literal is called in messages. -/
def TextRole.text : TextRole → String
  | importPath => "import path"
  | version => "syntax version"

/-- What the grammar has at some place. -/
inductive Expectation where
  | mark (m : Mark)
  | keyword (k : Keyword)
  | packageName
  | messageName
  | enumName
  | serviceName
  | rpcName
  | fieldName
  | enumValueName
  | optionName
  | extensionName
  | fieldType
  | mapKeyType
  | mapValueType
  | extendedType
  | requestType
  | responseType
  | fieldTag
  | enumValue
  | rangeFirst
  | rangeLast
  | optionValue
  | literal (role : TextRole)
  /-- A literal that is not only there but text. -/
  | textLiteral (role : TextRole)
  | fileStatement
  | messageStatement
  | enumStatement
  | extendStatement
  | serviceStatement
  | rpcStatement
  /-- No more than so many messages and bracketed values inside each other. -/
  | nesting (limit : Nat)
  deriving DecidableEq, Repr

/-- How messages say what the grammar has. -/
def Expectation.text : Expectation → String
  | mark m => m.text
  | keyword k => quotedName k.spelling
  | packageName => "package name"
  | messageName => "message name"
  | enumName => "enum name"
  | serviceName => "service name"
  | rpcName => "rpc name"
  | fieldName => "field name"
  | enumValueName => "enum value name"
  | optionName => "option name"
  | extensionName => "extension name"
  | fieldType => "field type"
  | mapKeyType => "map key type"
  | mapValueType => "map value type"
  | extendedType => "extended type name"
  | requestType => "request type"
  | responseType => "response type"
  | fieldTag => "field tag"
  | enumValue => "enum value"
  | rangeFirst => "extension range start"
  | rangeLast => "extension range end or 'max'"
  | optionValue => "option value"
  | literal role => role.text
  | textLiteral role => role.text ++ " as UTF-8 text"
  | fileStatement => "'package', 'import', 'option', 'message', 'enum', 'extend' or 'service'"
  | messageStatement =>
    "field, 'message', 'enum', 'extend', 'extensions', 'option' or " ++ Mark.closeBrace.text
  | enumStatement => "enum value, 'option' or " ++ Mark.closeBrace.text
  | extendStatement => "field or " ++ Mark.closeBrace.text
  | serviceStatement => "'rpc', 'option' or " ++ Mark.closeBrace.text
  | rpcStatement => "'option' or " ++ Mark.closeBrace.text
  | nesting limit => "at most " ++ toString limit ++ " levels of nesting"

/-- A token where the grammar has something else. -/
structure Unexpected where
  position : Position
  expected : Expectation
  found : Token
  deriving DecidableEq, Repr

/-- Why a text is no schema file. -/
inductive ReadError where
  | lexical (error : LexicalError)
  | unexpected (error : Unexpected)
  | violation (broken : Violation) (position : Position)
  deriving DecidableEq, Repr

namespace ReadError

/-- Where a failure is. -/
def position : ReadError → Position
  | lexical error => error.position
  | unexpected error => error.position
  | violation _ position => position

/-- What a failure is about, without its place. -/
def cause : ReadError → String
  | lexical error => error.cause.text
  | unexpected error => "expected " ++ error.expected.text ++ ", found " ++ error.found.text
  | violation broken _ => broken.text

/-- The message about a failure. -/
def text (e : ReadError) : String :=
  e.cause ++ " at " ++ e.position.text

end ReadError

end ProtoSchema
