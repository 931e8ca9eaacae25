import ProtoSchema.Render.Declaration
import ProtoSchema.Schema.File

/-!
# Files as text

A file is written in sections with an empty line between each two. The package stands at the place
that gives each type and service the full name that it has.
-/

namespace ProtoSchema.SchemaFile

/-- The version statement. -/
def versionLines (f : SchemaFile) : Lines :=
  f.version.toList.map fun version =>
    "syntax = " ++ String.ofList (Quoted.text version.toList) ++ ";"

/-- The package declaration. -/
def packageLines (f : SchemaFile) : Lines :=
  if f.package = "" then [] else ["package " ++ f.package ++ ";"]

/-- An import statement. -/
def importLine (head path : String) : String :=
  head ++ String.ofList (Quoted.text path.toList) ++ ";"

/-- The import statements, the public ones behind the others. -/
def importLines (f : SchemaFile) : Lines :=
  f.imports.map (importLine "import ") ++ f.publicImports.map (importLine "import public ")

/-- Whether the package declaration stands in front of all types and services. -/
def packageFirst (f : SchemaFile) : Bool :=
  f.typesBeforePackage = 0 && f.servicesBeforePackage = 0

/-- The sections of a file; some may be empty. -/
def sections (f : SchemaFile) : List Lines :=
  [f.versionLines ++ if f.packageFirst then f.packageLines else [],
    f.importLines,
    f.options.map Setting.line] ++
  (f.types.take f.typesBeforePackage).map TypeDecl.lines ++
  (f.services.take f.servicesBeforePackage).map Service.lines ++
  [if f.packageFirst then [] else f.packageLines] ++
  (f.types.drop f.typesBeforePackage).map TypeDecl.lines ++
  f.extendBlocks.map ExtendBlock.lines ++
  (f.services.drop f.servicesBeforePackage).map Service.lines

/-- The text of a file. -/
def text (f : SchemaFile) : String :=
  "\n\n".intercalate ((f.sections.filter (· ≠ [])).map Lines.text) ++ "\n"

end ProtoSchema.SchemaFile
