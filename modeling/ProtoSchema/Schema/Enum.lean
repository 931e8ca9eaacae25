import ProtoSchema.Schema.Check
import ProtoSchema.Schema.Value

/-!
# Enums

An enum gives names to numbers. The names differ; the numbers differ too, unless the enum allows
aliases.
-/

namespace ProtoSchema

/-- A named number. -/
structure EnumValue where
  name : String
  tag : Int
  doc : String
  options : List Setting
  deriving DecidableEq, Repr

/-- Checks an enum value by itself: it has a name, and its number has 32 bits. -/
def EnumValue.make (name : String) (tag : Int) (doc : String) (options : List Setting) :
    Except Violation EnumValue := do
  demand (name ≠ "") (.emptyName .enumValue)
  demand (isEnumNumber tag) (.enumTagOutOfRange name tag)
  return ⟨name, tag, doc, options⟩

/-- What is wrong with an enum value behind other values. -/
def EnumValue.fault? (scope : String) (aliased : Bool) (earlier : List EnumValue)
    (v : EnumValue) : Option Violation :=
  if earlier.any (·.name = v.name) then some (.duplicateName scope v.name)
  else if aliased then none
  else (earlier.find? (·.tag = v.tag)).map fun first => .duplicateTag scope v.tag first.name v.name

/-- An enum. -/
structure EnumType where
  name : String
  fullName : String
  doc : String
  values : List EnumValue
  options : List Setting
  deriving DecidableEq, Repr

namespace EnumType

/-- Whether these options allow two values to have one number. -/
def allowsAlias (options : List Setting) : Bool :=
  (Setting.find? options "allow_alias").bind Value.bool? = some true

/-- Checks an enum: it has a name and its values agree with each other. -/
def make (name fullName doc : String) (values : List EnumValue) (options : List Setting) :
    Except Violation EnumType := do
  demand (name ≠ "") (.emptyName .enumType)
  refuse (firstFault? (EnumValue.fault? fullName (allowsAlias options)) [] values)
  return ⟨name, fullName, doc, values, options⟩

/-- The value of a name. -/
def value? (e : EnumType) (name : String) : Option EnumValue :=
  e.values.find? (·.name = name)

end EnumType

end ProtoSchema
