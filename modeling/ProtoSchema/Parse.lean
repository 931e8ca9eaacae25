import ProtoSchema.Reading.File

/-!
# Parsing

From the text of a schema file, or its bytes, to the file.
-/

namespace ProtoSchema

/-- The schema file that a text is. -/
def parse (config : DocConfig) (name : String) (text : List Char) : Except ReadError SchemaFile :=
  (Reading.file Reading.nestingLimit name).ofStream (TokenStream.ofText config text)

/-- The bytes that may mark a text as UTF-8. -/
def byteOrderMark : List UInt8 := [0xef, 0xbb, 0xbf]

/-- Bytes without a byte order mark in front of them. -/
def withoutByteOrderMark (bytes : List UInt8) : List UInt8 :=
  if byteOrderMark.isPrefixOf bytes then bytes.drop byteOrderMark.length else bytes

/-- The schema file that some bytes are; where they cease to be UTF-8 there is a fault. -/
def parseBytes (config : DocConfig) (name : String) (bytes : List UInt8) :
    Except ReadError SchemaFile :=
  let content := withoutByteOrderMark bytes
  let text := Utf8.validPrefix content.toByteArray 0
  if Utf8.encode text = content then parse config name text
  else .error (.lexical ⟨.invalidUtf8, Position.start.advance text⟩)

end ProtoSchema
