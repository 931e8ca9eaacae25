import ProtoSchema.Schema.Check
import ProtoSchema.Schema.Value

/-!
# Fields

Fields of messages, the tag ranges that a message leaves to extensions, and blocks that extend a
message elsewhere. The tags of the fields in one place differ, so do their names, and none is a tag
for extensions.
-/

namespace ProtoSchema

/-- How many values a field has. -/
inductive Label where
  | required
  | optional
  | repeated
  deriving DecidableEq, Repr

/-- How a label is written. -/
def Label.spelling : Label → String
  | required => "required"
  | optional => "optional"
  | repeated => "repeated"

/-- The types that need no declaration. -/
inductive ScalarType where
  | double
  | float
  | int32
  | int64
  | uint32
  | uint64
  | sint32
  | sint64
  | fixed32
  | fixed64
  | sfixed32
  | sfixed64
  | bool
  | string
  | bytes
  deriving DecidableEq, Repr

namespace ScalarType

/-- The name of a scalar type. -/
def name : ScalarType → String
  | double => "double"
  | float => "float"
  | int32 => "int32"
  | int64 => "int64"
  | uint32 => "uint32"
  | uint64 => "uint64"
  | sint32 => "sint32"
  | sint64 => "sint64"
  | fixed32 => "fixed32"
  | fixed64 => "fixed64"
  | sfixed32 => "sfixed32"
  | sfixed64 => "sfixed64"
  | bool => "bool"
  | string => "string"
  | bytes => "bytes"

/-- Every scalar type once. -/
def all : List ScalarType :=
  [double, float, int32, int64, uint32, uint64, sint32, sint64, fixed32, fixed64, sfixed32,
    sfixed64, bool, string, bytes]

/-- The scalar type of a name. -/
def ofName? (typeName : String) : Option ScalarType :=
  all.find? (·.name = typeName)

end ScalarType

/-- A field. A map field is a repeated one whose type name is the signature of the map. -/
structure Field where
  label : Label
  typeName : String
  name : String
  tag : Nat
  doc : String
  options : List Setting
  deriving DecidableEq, Repr

namespace Field

/-- Checks a field by itself: it has a name, a type and a tag that is free for use. -/
def make (label : Label) (typeName name : String) (tag : Int) (doc : String)
    (options : List Setting) : Except Violation Field := do
  demand (name ≠ "") (.emptyName .field)
  demand (typeName ≠ "") (.emptyName .fieldType)
  demand (isTag tag) (.tagOutOfRange name tag)
  demand (!isReservedTag tag.toNat) (.reservedTag name tag.toNat)
  return ⟨label, typeName, name, tag.toNat, doc, options⟩

/-- The value of an option. -/
def option? (f : Field) (name : String) : Option Value :=
  Setting.find? f.options name

/-- The default value, if one is declared. -/
def default? (f : Field) : Option Value :=
  f.option? "default"

/-- Whether an option is set to the identifier `true`. -/
def isSet (f : Field) (name : String) : Bool :=
  (f.option? name).bind Value.bool? = some true

/-- The scalar type of a field, if it has one. -/
def scalarType? (f : Field) : Option ScalarType :=
  ScalarType.ofName? f.typeName

end Field

/-- Tags left to extensions, from `first` to `last`. -/
structure ExtensionRange where
  doc : String
  first : Nat
  last : Nat
  deriving DecidableEq, Repr

namespace ExtensionRange

/-- Checks that a range is one of tags and not empty. -/
def make (doc : String) (first last : Int) : Except Violation ExtensionRange := do
  demand (1 ≤ first && first ≤ last && last ≤ maxTag) (.invalidExtensionRange first last)
  return ⟨doc, first.toNat, last.toNat⟩

/-- Whether a tag lies in a range. -/
def contains (r : ExtensionRange) (tag : Nat) : Bool :=
  r.first ≤ tag && tag ≤ r.last

/-- Whether two ranges have a tag in common. -/
def overlaps (r s : ExtensionRange) : Bool :=
  r.first ≤ s.last && s.first ≤ r.last

/-- What is wrong with a range behind other ranges. -/
def fault? (earlier : List ExtensionRange) (r : ExtensionRange) : Option Violation :=
  if earlier.any (·.overlaps r) then some (.invalidExtensionRange r.first r.last) else none

end ExtensionRange

/-- What is wrong with a field behind other fields, in a place with these extension ranges. -/
def Field.fault? (scope : String) (ranges : List ExtensionRange) (earlier : List Field)
    (f : Field) : Option Violation :=
  match earlier.find? (·.tag = f.tag) with
  | some first => some (.duplicateTag scope f.tag first.name f.name)
  -- Among several faults that of the tag is told first, then that of the name.
  | none =>
    if earlier.any (·.name = f.name) then some (.duplicateName scope f.name)
    else
      (ranges.find? (·.contains f.tag)).map fun r =>
        .tagInExtensionRange f.name f.tag r.first r.last

/-- Fields that are added to a message declared elsewhere. -/
structure ExtendBlock where
  target : String
  doc : String
  fields : List Field
  deriving DecidableEq, Repr

/-- Checks a block: it has a target and its fields agree with each other. -/
def ExtendBlock.make (target doc : String) (fields : List Field) :
    Except Violation ExtendBlock := do
  demand (target ≠ "") (.emptyName .extendTarget)
  refuse (firstFault? (Field.fault? target []) [] fields)
  return ⟨target, doc, fields⟩

end ProtoSchema
