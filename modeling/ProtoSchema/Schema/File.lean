import ProtoSchema.Schema.Service
import ProtoSchema.Schema.TypeWalk

/-!
# Schema files

A schema file holds types, services and extend blocks under one package. The package may be declared
behind some of them; those have no part in it.
-/

namespace ProtoSchema

/-- What a file declares, sorted by kind. -/
structure FileBody where
  /-- The package, empty if there is none. -/
  package : String
  /-- How many types stand in front of the package declaration. -/
  typesBeforePackage : Nat
  /-- How many services stand in front of the package declaration. -/
  servicesBeforePackage : Nat
  /-- The version of the language, if it is declared. -/
  version : Option String
  imports : List String
  publicImports : List String
  types : List TypeDecl
  services : List Service
  extendBlocks : List ExtendBlock
  options : List Setting
  deriving DecidableEq, Repr

/-- A schema file: its name and what it declares. -/
structure SchemaFile extends FileBody where
  name : String
  deriving DecidableEq, Repr

namespace SchemaFile

/-- What messages call the scope of top-level names. -/
def scopeName (package : String) : String :=
  if package = "" then "<file>" else package

/-- Checks a file: no two types or services share a name. -/
def make (name : String) (body : FileBody) : Except Violation SchemaFile := do
  refuse ((firstRepeat? [] (body.types.map (·.name) ++ body.services.map (·.name))).map
    (.duplicateName (scopeName body.package)))
  -- No more can stand in front of the package than there is.
  return {
    body with
    name
    typesBeforePackage := min body.typesBeforePackage body.types.length
    servicesBeforePackage := min body.servicesBeforePackage body.services.length }

/-- All types of a file, each in front of the types inside it. -/
def allTypes (f : SchemaFile) : List TypeDecl :=
  (TypeWalk.ofTypes f.types).toList

/-- A name without the dot that may stand in front of a full name. -/
def withoutLeadingDot (name : String) : String :=
  match name.toList with
  | '.' :: rest => String.ofList rest
  | _ => name

/-- The type of a full name, with or without a leading dot. -/
def findType? (f : SchemaFile) (fullName : String) : Option TypeDecl :=
  f.allTypes.find? (·.fullName = withoutLeadingDot fullName)

/-- The value of an option. -/
def option? (f : SchemaFile) (name : String) : Option Value :=
  Setting.find? f.options name

end SchemaFile

end ProtoSchema
