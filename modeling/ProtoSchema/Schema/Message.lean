import ProtoSchema.Schema.Enum
import ProtoSchema.Schema.Field

/-!
# Messages and types

A type is a message or an enum, and messages hold further types. `TypeDecl.preorder` lists a type
and all that it holds, each type in front of the types inside it.
-/

namespace ProtoSchema

mutual

/-- A message. -/
structure Message where
  name : String
  fullName : String
  doc : String
  fields : List Field
  nested : List TypeDecl
  extendBlocks : List ExtendBlock
  extensions : List ExtensionRange
  options : List Setting
  deriving Repr

/-- A declared type. -/
inductive TypeDecl where
  | message (m : Message)
  | enumType (e : EnumType)
  deriving Repr

end

/-! ### Equality -/

mutual

/-- Whether two messages are the same. -/
def Message.same : Message → Message → Bool
  | ⟨name, fullName, doc, fields, nested, extendBlocks, extensions, options⟩,
    ⟨name', fullName', doc', fields', nested', extendBlocks', extensions', options'⟩ =>
    name = name' && fullName = fullName' && doc = doc' && fields = fields' &&
      TypeDecl.sameAll nested nested' && extendBlocks = extendBlocks' &&
      extensions = extensions' && options = options'

/-- Whether two types are the same. -/
def TypeDecl.same : TypeDecl → TypeDecl → Bool
  | .message m, .message n => m.same n
  | .enumType d, .enumType e => d = e
  | _, _ => false

/-- Whether two lists of types are the same. -/
def TypeDecl.sameAll : List TypeDecl → List TypeDecl → Bool
  | [], [] => true
  | t :: ts, u :: us => t.same u && TypeDecl.sameAll ts us
  | _, _ => false

end

mutual

theorem Message.same_iff (m n : Message) : m.same n = true ↔ m = n := by
  match m, n with
  | ⟨_, _, _, _, nested, _, _, _⟩, ⟨_, _, _, _, nested', _, _, _⟩ =>
    have types := TypeDecl.sameAll_iff nested nested'
    simp [Message.same, types, and_assoc]
termination_by structural m

theorem TypeDecl.same_iff (t u : TypeDecl) : t.same u = true ↔ t = u := by
  match t with
  | .message m =>
    have body := Message.same_iff m
    cases u <;> simp [TypeDecl.same, body]
  | .enumType _ => cases u <;> simp [TypeDecl.same]
termination_by structural t

theorem TypeDecl.sameAll_iff (ts us : List TypeDecl) :
    TypeDecl.sameAll ts us = true ↔ ts = us := by
  match ts with
  | [] => cases us <;> simp [TypeDecl.sameAll]
  | t :: ts =>
    have first := TypeDecl.same_iff t
    have rest := TypeDecl.sameAll_iff ts
    cases us <;> simp [TypeDecl.sameAll, first, rest]
termination_by structural ts

end

instance : DecidableEq Message := fun m n => decidable_of_iff _ (Message.same_iff m n)

instance : DecidableEq TypeDecl := fun t u => decidable_of_iff _ (TypeDecl.same_iff t u)

/-! ### What all types have -/

namespace TypeDecl

/-- The name of a type in its place. -/
def name : TypeDecl → String
  | message m => m.name
  | enumType e => e.name

/-- The name of a type with the names of all that it stands in. -/
def fullName : TypeDecl → String
  | message m => m.fullName
  | enumType e => e.fullName

/-- The documentation of a type. -/
def doc : TypeDecl → String
  | message m => m.doc
  | enumType e => e.doc

/-- The types inside a type. -/
def nested : TypeDecl → List TypeDecl
  | message m => m.nested
  | enumType _ => []

/-- The options of a type. -/
def options : TypeDecl → List Setting
  | message m => m.options
  | enumType e => e.options

/-- The message that a type is. -/
def message? : TypeDecl → Option Message
  | message m => some m
  | enumType _ => none

/-- The enum that a type is. -/
def enumType? : TypeDecl → Option EnumType
  | message _ => none
  | enumType e => some e

end TypeDecl

/-! ### Preorder -/

mutual

/-- All types inside a message. -/
def Message.descendants : Message → List TypeDecl
  | ⟨_, _, _, _, nested, _, _, _⟩ => TypeDecl.preorderAll nested

/-- A type and all types inside it. -/
def TypeDecl.preorder : TypeDecl → List TypeDecl
  | .message m => .message m :: m.descendants
  | .enumType e => [.enumType e]

/-- Some types, each in front of all types inside it. -/
def TypeDecl.preorderAll : List TypeDecl → List TypeDecl
  | [] => []
  | t :: ts => t.preorder ++ TypeDecl.preorderAll ts

end

theorem TypeDecl.preorder_eq (t : TypeDecl) : t.preorder = t :: TypeDecl.preorderAll t.nested := by
  cases t with
  | message m => cases m; simp [TypeDecl.preorder, Message.descendants, TypeDecl.nested]
  | enumType e => simp [TypeDecl.preorder, TypeDecl.nested, TypeDecl.preorderAll]

/-! ### Checked messages -/

/-- What stands between the braces of a message, sorted by kind. -/
structure MessageBody where
  fields : List Field
  nested : List TypeDecl
  extendBlocks : List ExtendBlock
  extensions : List ExtensionRange
  options : List Setting
  deriving DecidableEq, Repr

namespace Message

/-- Checks a message: it has a name, its ranges do not overlap, its fields agree with each other and
with the ranges, and no type in it has the name of a field or of another type. -/
def make (name fullName doc : String) (body : MessageBody) : Except Violation Message := do
  demand (name ≠ "") (.emptyName .message)
  -- The ranges come first, for the fields are checked against them.
  refuse (firstFault? ExtensionRange.fault? [] body.extensions)
  refuse (firstFault? (Field.fault? fullName body.extensions) [] body.fields)
  refuse ((firstRepeat? (body.fields.map (·.name)) (body.nested.map (·.name))).map
    (.duplicateName fullName))
  return ⟨name, fullName, doc, body.fields, body.nested, body.extendBlocks, body.extensions,
    body.options⟩

/-- The field of a name. -/
def field? (m : Message) (name : String) : Option Field :=
  m.fields.find? (·.name = name)

/-- The field of a tag. -/
def fieldByTag? (m : Message) (tag : Nat) : Option Field :=
  m.fields.find? (·.tag = tag)

/-- The value of an option. -/
def option? (m : Message) (name : String) : Option Value :=
  Setting.find? m.options name

end Message

end ProtoSchema
