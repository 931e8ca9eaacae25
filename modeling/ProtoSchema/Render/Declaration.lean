import ProtoSchema.Render.Value
import ProtoSchema.Schema.Message
import ProtoSchema.Schema.Service
import ProtoSchema.Text.Lines

/-!
# Declarations as text

Each declaration is a list of lines: its documentation as line comments, then the declaration
itself. A block has the lines of its contents between its head and its closing brace, one step
further in.
-/

namespace ProtoSchema

/-- The lines of a text. -/
abbrev Lines := List String

/-- Lines as one text. -/
def Lines.text (lines : Lines) : String :=
  "\n".intercalate lines

/-- A line one step further in. -/
def indent (line : String) : String :=
  "  " ++ line

/-- A line of documentation as a line comment. -/
def docLine (line : List Char) : String :=
  match line with
  | [] => "//"
  | _ => "// " ++ String.ofList line

/-- Documentation as line comments. -/
def docLines (doc : String) : Lines :=
  if doc = "" then [] else (splitLines doc.toList).map docLine

/-- A head and, in braces, some contents. -/
def block (head : String) (contents : Lines) : Lines :=
  (head ++ " \x7b") :: contents.map indent ++ ["\x7d"]

/-- An option statement. -/
def Setting.line (s : Setting) : String :=
  "option " ++ s.text ++ ";"

/-- Options in brackets, if there are any. -/
def bracketText (options : List Setting) : String :=
  match options with
  | [] => ""
  | _ => " [" ++ commaList (options.map Setting.text) ++ "]"

namespace Field

/-- Whether a field is a map field; those are written without a label. -/
def isMap (f : Field) : Bool :=
  "map<".toList.isPrefixOf f.typeName.toList

/-- The declaration of a field. -/
def line (f : Field) : String :=
  (if f.isMap then "" else f.label.spelling ++ " ") ++ f.typeName ++ " " ++ f.name ++ " = " ++
    toString f.tag ++ bracketText f.options ++ ";"

/-- A field with its documentation. -/
def lines (f : Field) : Lines :=
  docLines f.doc ++ [f.line]

end Field

namespace ExtensionRange

/-- The bounds of a range. -/
def boundsText (r : ExtensionRange) : String :=
  if r.first = r.last then toString r.first
  else if r.last = maxTag then toString r.first ++ " to max"
  else toString r.first ++ " to " ++ toString r.last

/-- A range with its documentation. -/
def lines (r : ExtensionRange) : Lines :=
  docLines r.doc ++ ["extensions " ++ r.boundsText ++ ";"]

end ExtensionRange

/-- An extend block with its documentation. -/
def ExtendBlock.lines (e : ExtendBlock) : Lines :=
  docLines e.doc ++ block ("extend " ++ e.target) (e.fields.flatMap Field.lines)

namespace EnumValue

/-- The name and the number of an enum value. -/
def text (v : EnumValue) : String :=
  v.name ++ " = " ++ toString v.tag

/-- An enum value with its options and its documentation. -/
def lines (v : EnumValue) : Lines :=
  docLines v.doc ++ [v.text ++ bracketText v.options ++ ";"]

end EnumValue

/-- An enum with its documentation. -/
def EnumType.lines (e : EnumType) : Lines :=
  docLines e.doc ++
    block ("enum " ++ e.name) (e.options.map Setting.line ++ e.values.flatMap EnumValue.lines)

namespace Method

/-- A method without its end. -/
def head (m : Method) : String :=
  "rpc " ++ m.name ++ " (" ++ m.request ++ ") returns (" ++ m.response ++ ")"

/-- A method with its documentation. -/
def lines (m : Method) : Lines :=
  docLines m.doc ++
    match m.options with
    | [] => [m.head ++ ";"]
    | options => block m.head (options.map Setting.line)

end Method

/-- A service with its documentation. -/
def Service.lines (s : Service) : Lines :=
  docLines s.doc ++
    block ("service " ++ s.name) (s.options.map Setting.line ++ s.methods.flatMap Method.lines)

mutual

/-- A message with its documentation: options, fields, extension ranges, types and extend blocks. -/
def Message.lines : Message → Lines
  | ⟨name, _, doc, fields, nested, extendBlocks, extensions, options⟩ =>
    docLines doc ++
      block ("message " ++ name)
        (options.map Setting.line ++ fields.flatMap Field.lines ++
          extensions.flatMap ExtensionRange.lines ++ TypeDecl.linesAll nested ++
          extendBlocks.flatMap ExtendBlock.lines)

/-- A type with its documentation. -/
def TypeDecl.lines : TypeDecl → Lines
  | .message m => m.lines
  | .enumType e => e.lines

/-- Types one after the other. -/
def TypeDecl.linesAll : List TypeDecl → Lines
  | [] => []
  | t :: ts => t.lines ++ TypeDecl.linesAll ts

end

theorem TypeDecl.linesAll_eq_flatMap (ts : List TypeDecl) :
    TypeDecl.linesAll ts = ts.flatMap TypeDecl.lines := by
  induction ts with
  | nil => simp [TypeDecl.linesAll]
  | cons t ts ih => simp [TypeDecl.linesAll, ih]

end ProtoSchema
