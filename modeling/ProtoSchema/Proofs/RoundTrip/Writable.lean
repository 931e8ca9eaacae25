import ProtoSchema.Proofs.Grammar.Depth
import ProtoSchema.Proofs.Lexing.Lines
import ProtoSchema.Proofs.Lexing.Name
import ProtoSchema.Reading.File

/-!
# What can be written

Files that the syntax has words for: their names are identifiers, their numbers are within bounds and
their documentation has no blanks at the ends of lines. What obeys the rules may still be beyond the
syntax, such as a field with a blank in its name.
-/

namespace ProtoSchema

open Reading

/-! ### Names -/

/-- A path behind a name: nothing, or an identifier that begins with a point. -/
def IsPathText (path : String) : Prop :=
  path = "" ∨ isNameText path.toList = true ∧ isSuffix path = true

/-- A name that a declaration can have. -/
def IsDeclaredName (name : String) : Prop :=
  IsIdent name ∧ Reader.isPlainName name = true

instance (name : String) : Decidable (IsDeclaredName name) :=
  inferInstanceAs (Decidable (_ ∧ _))

/-- A name that an option can have: an identifier or one in parentheses, and a path. -/
inductive IsOptionText : String → Prop
  | plain {base path : String} : IsIdent base → IsPathText path → IsOptionText (base ++ path)
  | extension {inner path : String} :
      IsIdent inner → IsPathText path → IsOptionText ("(" ++ inner ++ ")" ++ path)

/-- A name that an entry of a map can have. -/
inductive IsKeyText : String → Prop
  | option {name : String} : IsOptionText name → IsKeyText name
  | extension {inner : String} : IsIdent inner → IsKeyText ("[" ++ inner ++ "]")

/-! ### Values -/

mutual

/-- A value that can be written. -/
def Value.Writable : Value → Prop
  | .int n => n.natAbs < Numeral.integerBound
  | .float x => x.isFinite = true
  | .str _ => True
  | .bytes bytes => Utf8.decode? bytes = none
  | .ident name => IsIdent name
  | .list items => Value.AllWritable items
  | .map entries => Setting.AllWritable entries

/-- Values that can be written. -/
def Value.AllWritable : List Value → Prop
  | [] => True
  | v :: vs => v.Writable ∧ Value.AllWritable vs

/-- An entry of a map that can be written. -/
def Setting.IsWritableEntry : Setting → Prop
  | ⟨name, value⟩ => IsKeyText name ∧ value.Writable

/-- Entries of a map that can be written. -/
def Setting.AllWritable : List Setting → Prop
  | [] => True
  | s :: ss => s.IsWritableEntry ∧ Setting.AllWritable ss

end

theorem Value.allWritable_iff {vs : List Value} :
    Value.AllWritable vs ↔ ∀ v ∈ vs, v.Writable := by
  induction vs with
  | nil => simp [Value.AllWritable]
  | cons v vs ih => simp [Value.AllWritable, ih]

theorem Setting.allWritable_iff {ss : List Setting} :
    Setting.AllWritable ss ↔ ∀ s ∈ ss, s.IsWritableEntry := by
  induction ss with
  | nil => simp [Setting.AllWritable]
  | cons s ss ih => simp [Setting.AllWritable, ih]

/-- An option that can be written. -/
structure Setting.Writable (s : Setting) : Prop where
  name : IsOptionText s.name
  value : s.value.Writable

/-! ### Declarations -/

/-- A field that can be written with its label. -/
structure Field.Writable (f : Field) : Prop where
  typeName : IsIdent f.typeName
  name : IsDeclaredName f.name
  doc : IsTrimmed f.doc
  options : ∀ s ∈ f.options, s.Writable

/-- A map field that can be written. -/
structure Field.IsWritableMap (f : Field) : Prop where
  label : f.label = .repeated
  typeName : ∃ key value, IsIdent key ∧ IsIdent value ∧
    f.typeName = "map<" ++ key ++ ", " ++ value ++ ">"
  name : IsDeclaredName f.name
  doc : IsTrimmed f.doc
  options : ∀ s ∈ f.options, s.Writable

/-- An extend block that can be written. -/
structure ExtendBlock.Writable (e : ExtendBlock) : Prop where
  target : IsIdent e.target
  doc : IsTrimmed e.doc
  fields : ∀ f ∈ e.fields, f.Writable

/-- An enum value that can be written; it would be an option statement by another name. -/
structure EnumValue.Writable (v : EnumValue) : Prop where
  name : IsDeclaredName v.name
  noOption : v.name ≠ Keyword.optionWord.spelling
  doc : IsTrimmed v.doc
  options : ∀ s ∈ v.options, s.Writable

/-- An enum that can be written in a scope. -/
structure EnumType.Writable (scope : Scope) (e : EnumType) : Prop where
  name : IsDeclaredName e.name
  fullName : e.fullName = scope.qualify e.name
  doc : IsTrimmed e.doc
  values : ∀ v ∈ e.values, v.Writable
  options : ∀ s ∈ e.options, s.Writable

/-- A method that can be written. -/
structure Method.Writable (m : Method) : Prop where
  name : IsDeclaredName m.name
  request : IsIdent m.request
  response : IsIdent m.response
  doc : IsTrimmed m.doc
  options : ∀ s ∈ m.options, s.Writable

/-- A service that can be written in a scope. -/
structure Service.Writable (scope : Scope) (s : Service) : Prop where
  name : IsDeclaredName s.name
  fullName : s.fullName = scope.qualify s.name
  doc : IsTrimmed s.doc
  methods : ∀ m ∈ s.methods, m.Writable
  options : ∀ o ∈ s.options, o.Writable

mutual

/-- A message that can be written in a scope; its name belongs to the scope of the types in it. -/
inductive Message.Writable : Scope → Message → Prop
  | intro {scope : Scope} {m : Message} :
      IsDeclaredName m.name → m.fullName = scope.qualify m.name → IsTrimmed m.doc →
      (∀ f ∈ m.fields, f.Writable ∨ f.IsWritableMap) →
      (∀ t ∈ m.nested, TypeDecl.Writable (scope ++ [m.name]) t) →
      (∀ e ∈ m.extendBlocks, e.Writable) → (∀ r ∈ m.extensions, IsTrimmed r.doc) →
      (∀ s ∈ m.options, s.Writable) → Message.Writable scope m

/-- A type that can be written in a scope. -/
inductive TypeDecl.Writable : Scope → TypeDecl → Prop
  | message {scope : Scope} {m : Message} :
      Message.Writable scope m → TypeDecl.Writable scope (.message m)
  | enumType {scope : Scope} {e : EnumType} :
      e.Writable scope → TypeDecl.Writable scope (.enumType e)

end

/-- The scope that a package is for the declarations behind it. -/
def packageScope (package : String) : Scope :=
  if package = "" then [] else [package]

/-- A file that can be written: what stands in front of the package has no part in it. -/
structure SchemaFile.Writable (f : SchemaFile) : Prop where
  version : f.version = none ∨ f.version = some knownVersion
  package : IsIdent f.package ∨
    f.package = "" ∧ f.typesBeforePackage = 0 ∧ f.servicesBeforePackage = 0
  typesBefore : ∀ t ∈ f.types.take f.typesBeforePackage, t.Writable []
  types : ∀ t ∈ f.types.drop f.typesBeforePackage, t.Writable (packageScope f.package)
  servicesBefore : ∀ s ∈ f.services.take f.servicesBeforePackage, s.Writable []
  services : ∀ s ∈ f.services.drop f.servicesBeforePackage, s.Writable (packageScope f.package)
  extendBlocks : ∀ e ∈ f.extendBlocks, e.Writable
  options : ∀ s ∈ f.options, s.Writable

/-! ### Names of settings -/

mutual

/-- The names in a value. -/
def Value.settingNames : Value → List String
  | .list items => Value.allSettingNames items
  | .map entries => Setting.allSettingNames entries
  | _ => []

/-- The names in some values. -/
def Value.allSettingNames : List Value → List String
  | [] => []
  | v :: vs => v.settingNames ++ Value.allSettingNames vs

/-- The name of a setting and the names in its value. -/
def Setting.settingNames : Setting → List String
  | ⟨name, value⟩ => name :: value.settingNames

/-- The names of some settings and the names in their values. -/
def Setting.allSettingNames : List Setting → List String
  | [] => []
  | s :: ss => s.settingNames ++ Setting.allSettingNames ss

end

theorem Value.allSettingNames_eq_flatMap (vs : List Value) :
    Value.allSettingNames vs = vs.flatMap Value.settingNames := by
  induction vs with
  | nil => simp [Value.allSettingNames]
  | cons v vs ih => simp [Value.allSettingNames, ih]

theorem Setting.allSettingNames_eq_flatMap (ss : List Setting) :
    Setting.allSettingNames ss = ss.flatMap Setting.settingNames := by
  induction ss with
  | nil => simp [Setting.allSettingNames]
  | cons s ss ih => simp [Setting.allSettingNames, ih]

/-- The names of the options of a field and the names in their values; so for other declarations. -/
def Field.settingNames (f : Field) : List String :=
  f.options.flatMap Setting.settingNames

def ExtendBlock.settingNames (e : ExtendBlock) : List String :=
  e.fields.flatMap Field.settingNames

def EnumValue.settingNames (v : EnumValue) : List String :=
  v.options.flatMap Setting.settingNames

def EnumType.settingNames (e : EnumType) : List String :=
  e.options.flatMap Setting.settingNames ++ e.values.flatMap EnumValue.settingNames

def Method.settingNames (m : Method) : List String :=
  m.options.flatMap Setting.settingNames

def Service.settingNames (s : Service) : List String :=
  s.options.flatMap Setting.settingNames ++ s.methods.flatMap Method.settingNames

mutual

/-- The names of the options in a message, in its fields and in all that it holds. -/
def Message.settingNames : Message → List String
  | ⟨_, _, _, fields, nested, extendBlocks, _, options⟩ =>
    options.flatMap Setting.settingNames ++ (fields.flatMap Field.settingNames ++
      (TypeDecl.allSettingNames nested ++ extendBlocks.flatMap ExtendBlock.settingNames))

/-- The names of the options in a type. -/
def TypeDecl.settingNames : TypeDecl → List String
  | .message m => m.settingNames
  | .enumType e => e.settingNames

/-- The names of the options in some types. -/
def TypeDecl.allSettingNames : List TypeDecl → List String
  | [] => []
  | t :: ts => t.settingNames ++ TypeDecl.allSettingNames ts

end

theorem TypeDecl.allSettingNames_eq_flatMap (ts : List TypeDecl) :
    TypeDecl.allSettingNames ts = ts.flatMap TypeDecl.settingNames := by
  induction ts with
  | nil => simp [TypeDecl.allSettingNames]
  | cons t ts ih => simp [TypeDecl.allSettingNames, ih]

theorem Message.settingNames_eq (m : Message) :
    m.settingNames = m.options.flatMap Setting.settingNames ++ (m.fields.flatMap Field.settingNames ++
      (m.nested.flatMap TypeDecl.settingNames ++
        m.extendBlocks.flatMap ExtendBlock.settingNames)) := by
  cases m
  simp [settingNames, TypeDecl.allSettingNames_eq_flatMap]

/-- All names of options and of entries of maps in a file. -/
def SchemaFile.settingNames (f : SchemaFile) : List String :=
  f.options.flatMap Setting.settingNames ++ (f.types.flatMap TypeDecl.settingNames ++
    (f.extendBlocks.flatMap ExtendBlock.settingNames ++ f.services.flatMap Service.settingNames))

end ProtoSchema
