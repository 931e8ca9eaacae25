import ProtoSchema.Reading.Message
import ProtoSchema.Schema.File

/-!
# Reading files

A file is a list of statements, in front of which its version may stand. The package may be declared
once, and qualifies the names of what stands behind it.
-/

namespace ProtoSchema.Reading

open Reader

/-- What may stand in a file, apart from version and package. -/
inductive FileStatement where
  | empty
  | imported (isPublic : Bool) (path : String)
  | option (s : Setting)
  | type (position : Position) (t : TypeDecl)
  | service (position : Position) (s : Service)
  | extend (e : ExtendBlock)
  deriving DecidableEq, Repr

namespace FileStatement

/-- The path that a statement imports, publicly or not. -/
def import? (isPublic : Bool) : FileStatement → Option String
  | imported isPublic' path => if isPublic' = isPublic then some path else none
  | _ => none

/-- The option that a statement sets. -/
def option? : FileStatement → Option Setting
  | option s => some s
  | _ => none

/-- The type that a statement declares. -/
def type? : FileStatement → Option TypeDecl
  | type _ t => some t
  | _ => none

/-- The service that a statement declares. -/
def service? : FileStatement → Option Service
  | service _ s => some s
  | _ => none

/-- The extend block that a statement is. -/
def extend? : FileStatement → Option ExtendBlock
  | extend e => some e
  | _ => none

/-- The name that a statement declares and where it does. -/
def declared? : FileStatement → Option (String × Position)
  | type position t => some (t.name, position)
  | service position s => some (s.name, position)
  | _ => none

end FileStatement

/-- An import, whose keyword comes next. -/
def importStatement : Reader FileStatement := do
  discard next
  let isPublic ← eatKeyword .publicWord
  let path ← textLiteral .importPath
  expect .semicolon
  return .imported isPublic path

/-- A statement of a file. There is none at the end and none in front of a package declaration. -/
def fileStatement (budget : Nat) (scope : Scope) : Reader (Option FileStatement) := do
  let t ← peek
  if t.token = .eof then return none
  if t.token = .mark .semicolon then
    discard next
    return some .empty
  match t.token.keyword? with
  | some .packageWord => return none
  | some .importWord => return some (← importStatement)
  | some .optionWord =>
    discard next
    return some (.option (← optionStatement budget))
  | some .messageWord => return some (.type t.position (.message (← message budget scope)))
  | some .enumWord => return some (.type t.position (.enumType (← enumType budget scope)))
  | some .extendWord => return some (.extend (← extendBlock budget))
  | some .serviceWord => return some (.service t.position (← service budget scope))
  | _ => unexpected t .fileStatement

/-- The only version of the language that is read. -/
def knownVersion : String := "proto2"

/-- The version statement, if the next word begins one. -/
def versionStatement? : Reader (Option String) := do
  if ← eatKeyword .syntaxWord then
    expect .equals
    let t ← peek
    let version ← textLiteral .version
    expect .semicolon
    accept t.position (demand (version = knownVersion) (.unsupportedVersion version))
    return some version
  else return none

/-- The package declaration, if the next word begins one. -/
def packageStatement? : Reader (Option (Position × String)) := do
  let t ← peek
  if ← eatKeyword .packageWord then
    let package ← ident .packageName
    expect .semicolon
    return some (t.position, package)
  else return none

/-- The statements behind a package declaration. -/
def statementsOf (budget : Nat) (package : String) : Reader (List FileStatement) := do
  let statements ← many (fileStatement budget [package])
  -- A second declaration is read to its end before it is refused.
  match ← packageStatement? with
  | none => return statements
  | some (position, _) => accept position (.error (.duplicatePackage package))

/-- A file as it is written: the statements in front of the package declaration, and the package
with the statements behind it. -/
structure FileText where
  version : Option String
  before : List FileStatement
  package : Option (String × List FileStatement)
  deriving DecidableEq, Repr

namespace FileText

/-- All statements, in order. -/
def statements (f : FileText) : List FileStatement :=
  f.before ++ (f.package.map (·.2)).getD []

/-- How many statements of a kind stand in front of the package declaration. -/
def countBefore {α : Type} (f : FileText) (pick : FileStatement → Option α) : Nat :=
  if f.package.isSome then (f.before.filterMap pick).length else 0

/-- Statements sorted by kind. -/
def body (f : FileText) : FileBody where
  package := (f.package.map (·.1)).getD ""
  typesBeforePackage := f.countBefore FileStatement.type?
  servicesBeforePackage := f.countBefore FileStatement.service?
  version := f.version
  imports := f.statements.filterMap (FileStatement.import? false)
  publicImports := f.statements.filterMap (FileStatement.import? true)
  types := f.statements.filterMap FileStatement.type?
  services := f.statements.filterMap FileStatement.service?
  extendBlocks := f.statements.filterMap FileStatement.extend?
  options := f.statements.filterMap FileStatement.option?

/-- Where a violation of the whole file is: a name that is declared twice is at the last of its
declarations. -/
def positionOf (f : FileText) : Violation → Position
  | .duplicateName _ name =>
    match (f.statements.filterMap FileStatement.declared?).reverse.find? (·.1 = name) with
    | some (_, position) => position
    | none => .start
  | _ => .start

end FileText

/-- A file, up to its end. -/
def fileText (budget : Nat) : Reader FileText := do
  let version ← versionStatement?
  -- No package qualifies the names in front of its declaration.
  let before ← many (fileStatement budget [])
  match ← packageStatement? with
  | none => return ⟨version, before, none⟩
  | some (_, package) => return ⟨version, before, some (package, ← statementsOf budget package)⟩

/-- A file that obeys the rules. -/
def file (budget : Nat) (name : String) : Reader SchemaFile := do
  let text ← fileText budget
  match SchemaFile.make name text.body with
  | .ok f => return f
  | .error violation => accept (text.positionOf violation) (.error violation)

end ProtoSchema.Reading
