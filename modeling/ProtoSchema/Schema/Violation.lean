import ProtoSchema.Schema.Tag

/-!
# Violations

The rules of the schema that a declaration can break, and the words of the messages about them.
-/

namespace ProtoSchema

/-- The parts of a declaration that must have a name. -/
inductive NamedPart where
  | field
  | fieldType
  | enumValue
  | enumType
  | message
  | extendTarget
  | rpc
  | requestType
  | responseType
  | service
  deriving DecidableEq, Repr

/-- What a part is called in messages. -/
def NamedPart.text : NamedPart → String
  | field => "field"
  | fieldType => "field type"
  | enumValue => "enum value"
  | enumType => "enum"
  | message => "message"
  | extendTarget => "extend target"
  | rpc => "rpc"
  | requestType => "request type"
  | responseType => "response type"
  | service => "service"

/-- A broken rule. -/
inductive Violation where
  | duplicateTag (scope : String) (tag : Int) (first second : String)
  | duplicateName (scope name : String)
  | tagOutOfRange (name : String) (tag : Int)
  | reservedTag (name : String) (tag : Nat)
  | tagInExtensionRange (name : String) (tag first last : Nat)
  | enumTagOutOfRange (name : String) (tag : Int)
  | invalidExtensionRange (first last : Int)
  | emptyName (part : NamedPart)
  | duplicatePackage (existing : String)
  | unsupportedVersion (version : String)
  deriving DecidableEq, Repr

/-- A name between single quotes. -/
def quotedName (name : String) : String :=
  "'" ++ name ++ "'"

/-- The words of the message about a violation. -/
def Violation.text : Violation → String
  | duplicateTag scope tag first second =>
    "duplicate tag " ++ toString tag ++ " in " ++ quotedName scope ++ " (used by " ++
      quotedName first ++ " and " ++ quotedName second ++ ")"
  | duplicateName scope name => "duplicate name " ++ quotedName name ++ " in " ++ quotedName scope
  | tagOutOfRange name tag =>
    "tag " ++ toString tag ++ " of " ++ quotedName name ++ " is out of range 1..=" ++
      toString maxTag
  | reservedTag name tag =>
    "tag " ++ toString tag ++ " of " ++ quotedName name ++
      " is in the reserved range 19000..=19999"
  | tagInExtensionRange name tag first last =>
    "tag " ++ toString tag ++ " of " ++ quotedName name ++ " falls inside extension range " ++
      toString first ++ " to " ++ toString last
  | enumTagOutOfRange name tag =>
    "enum value " ++ quotedName name ++ " = " ++ toString tag ++
      " does not fit in a signed 32-bit integer"
  | invalidExtensionRange first last =>
    "invalid extension range " ++ toString first ++ " to " ++ toString last
  | emptyName part => part.text ++ " name must not be empty"
  | duplicatePackage existing => "package already declared as " ++ quotedName existing
  | unsupportedVersion version =>
    "unsupported syntax " ++ quotedName version ++ ", only \"proto2\" is accepted"

end ProtoSchema
