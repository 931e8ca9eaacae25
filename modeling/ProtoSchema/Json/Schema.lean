import ProtoSchema.Json.Basic
import ProtoSchema.Schema.File

/-!
# Schema files as JSON

The JSON form of every part of a schema file. It leaves out where the package declaration stands;
full names show that.
-/

namespace ProtoSchema

mutual

/-- A value under the name of its kind. -/
def Value.json : Value → Json
  | .int n => .tagged "Int" (.int n)
  | .float x => .tagged "Float" (.float x)
  | .str text => .tagged "Str" (.str text)
  | .bytes bytes => .tagged "Bytes" (.arr (bytes.map fun byte => .nat byte.toNat))
  | .ident name => .tagged "Ident" (.str name)
  | .list items => .tagged "List" (.arr (Value.jsonAll items))
  | .map entries => .tagged "Map" (.arr (Setting.jsonAll entries))

/-- Values one by one. -/
def Value.jsonAll : List Value → List Json
  | [] => []
  | v :: vs => v.json :: Value.jsonAll vs

/-- A setting. -/
def Setting.json : Setting → Json
  | ⟨name, value⟩ => .obj [("name", .str name), ("value", value.json)]

/-- Settings one by one. -/
def Setting.jsonAll : List Setting → List Json
  | [] => []
  | s :: ss => s.json :: Setting.jsonAll ss

end

theorem Value.jsonAll_eq_map (vs : List Value) : Value.jsonAll vs = vs.map Value.json := by
  induction vs with
  | nil => simp [Value.jsonAll]
  | cons v vs ih => simp [Value.jsonAll, ih]

theorem Setting.jsonAll_eq_map (ss : List Setting) : Setting.jsonAll ss = ss.map Setting.json := by
  induction ss with
  | nil => simp [Setting.jsonAll]
  | cons s ss ih => simp [Setting.jsonAll, ih]

/-- Options. -/
def optionsJson (options : List Setting) : Json :=
  .arr (options.map Setting.json)

/-- A field. -/
def Field.json (f : Field) : Json :=
  .obj [("label", .str f.label.spelling), ("type_name", .str f.typeName), ("name", .str f.name),
    ("tag", .nat f.tag), ("documentation", .str f.doc), ("options", optionsJson f.options)]

/-- An extension range. -/
def ExtensionRange.json (r : ExtensionRange) : Json :=
  .obj [("documentation", .str r.doc), ("start", .nat r.first), ("end", .nat r.last)]

/-- An extend block. -/
def ExtendBlock.json (e : ExtendBlock) : Json :=
  .obj [("type_name", .str e.target), ("documentation", .str e.doc),
    ("fields", .arr (e.fields.map Field.json))]

/-- An enum value. -/
def EnumValue.json (v : EnumValue) : Json :=
  .obj [("name", .str v.name), ("tag", .int v.tag), ("documentation", .str v.doc),
    ("options", optionsJson v.options)]

/-- An enum. -/
def EnumType.json (e : EnumType) : Json :=
  .obj [("kind", .str "enum"), ("name", .str e.name), ("fully_qualified_name", .str e.fullName),
    ("documentation", .str e.doc), ("values", .arr (e.values.map EnumValue.json)),
    ("options", optionsJson e.options)]

/-- A method. -/
def Method.json (m : Method) : Json :=
  .obj [("name", .str m.name), ("documentation", .str m.doc), ("request_type", .str m.request),
    ("response_type", .str m.response), ("options", optionsJson m.options)]

/-- A service. -/
def Service.json (s : Service) : Json :=
  .obj [("name", .str s.name), ("fully_qualified_name", .str s.fullName),
    ("documentation", .str s.doc), ("options", optionsJson s.options),
    ("methods", .arr (s.methods.map Method.json))]

mutual

/-- A message. -/
def Message.json : Message → Json
  | ⟨name, fullName, doc, fields, nested, extendBlocks, extensions, options⟩ =>
    .obj [("kind", .str "message"), ("name", .str name), ("fully_qualified_name", .str fullName),
      ("documentation", .str doc), ("fields", .arr (fields.map Field.json)),
      ("nested_types", .arr (TypeDecl.jsonAll nested)),
      ("extends", .arr (extendBlocks.map ExtendBlock.json)),
      ("extensions", .arr (extensions.map ExtensionRange.json)), ("options", optionsJson options)]

/-- A type. -/
def TypeDecl.json : TypeDecl → Json
  | .message m => m.json
  | .enumType e => e.json

/-- Types one by one. -/
def TypeDecl.jsonAll : List TypeDecl → List Json
  | [] => []
  | t :: ts => t.json :: TypeDecl.jsonAll ts

end

theorem TypeDecl.jsonAll_eq_map (ts : List TypeDecl) :
    TypeDecl.jsonAll ts = ts.map TypeDecl.json := by
  induction ts with
  | nil => simp [TypeDecl.jsonAll]
  | cons t ts ih => simp [TypeDecl.jsonAll, ih]

/-- A file. -/
def SchemaFile.json (f : SchemaFile) : Json :=
  .obj [("file_name", .str f.name), ("package", .str f.package),
    ("syntax", (f.version.map Json.str).getD .null),
    ("dependencies", .arr (f.imports.map Json.str)),
    ("public_dependencies", .arr (f.publicImports.map Json.str)),
    ("types", .arr (f.types.map TypeDecl.json)),
    ("services", .arr (f.services.map Service.json)),
    ("extends", .arr (f.extendBlocks.map ExtendBlock.json)), ("options", optionsJson f.options)]

end ProtoSchema
