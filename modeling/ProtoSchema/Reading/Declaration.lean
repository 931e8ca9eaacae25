import ProtoSchema.Reading.Option
import ProtoSchema.Schema.Message
import ProtoSchema.Schema.Service

/-!
# Reading declarations

Fields, extension ranges, extend blocks, enums and services. What stands between braces is read as a
list of statements, out of which each kind of statement is picked in order.
-/

namespace ProtoSchema.Reading

open Reader

/-- The names of the package and the messages around a declaration, the outermost first. -/
abbrev Scope := List String

/-- The full name of a declaration in a scope. -/
def Scope.qualify (scope : Scope) (name : String) : String :=
  ".".intercalate (scope ++ [name])

/-! ### Fields -/

/-- What a field declaration has behind its type. -/
def fieldRest (budget : Nat) (start : Located) (label : Label) (typeName : String) :
    Reader Field := do
  let name ← plainName .fieldName
  expect .equals
  let tag ← int .fieldTag
  let options ← bracketOptions budget
  expect .semicolon
  accept start.position (Field.make label typeName name tag (docOf start) options)

/-- A field whose label comes next. -/
def labelledField (budget : Nat) (label : Label) : Reader Field := do
  let start ← next
  let typeName ← ident .fieldType
  fieldRest budget start label typeName

/-- A map field, whose first word comes next. -/
def mapField (budget : Nat) : Reader Field := do
  let start ← next
  expect .less
  let key ← ident .mapKeyType
  expect .comma
  let value ← ident .mapValueType
  expect .greater
  fieldRest budget start .repeated ("map<" ++ key ++ ", " ++ value ++ ">")

/-- The label that a keyword is. -/
def labelOfKeyword? : Keyword → Option Label
  | .requiredWord => some .required
  | .optionalWord => some .optional
  | .repeatedWord => some .repeated
  | _ => none

/-! ### Extensions -/

/-- The end of an extension range that begins with `first`. -/
def rangeEnd (first : Int) : Reader Int := do
  if ← eatKeyword .toWord then
    if ← eatKeyword .maxWord then return maxTag
    else int .rangeLast
  else return first

/-- An extension range. -/
def extensionRange (doc : String) : Reader ExtensionRange := do
  let t ← peek
  let first ← int .rangeFirst
  let last ← rangeEnd first
  accept t.position (ExtensionRange.make doc first last)

/-- An extensions statement, whose ranges share its documentation. -/
def extensions : Reader (List ExtensionRange) := do
  let start ← expectKeyword .extensionsWord
  let ranges ← commaSeparated (extensionRange (docOf start))
  expect .semicolon
  return ranges

/-- What may stand in an extend block. -/
inductive ExtendStatement where
  | empty
  | field (f : Field)
  deriving DecidableEq, Repr

/-- The field that a statement declares. -/
def ExtendStatement.field? : ExtendStatement → Option Field
  | field f => some f
  | empty => none

/-- A statement of an extend block. -/
def extendStatement (budget : Nat) : Reader (Option ExtendStatement) := do
  let t ← peek
  match t.token with
  | .mark .closeBrace => return none
  | .mark .semicolon =>
    discard next
    return some .empty
  | _ =>
    match t.token.keyword?.bind labelOfKeyword? with
    | some label => return some (.field (← labelledField budget label))
    | none => unexpected t .extendStatement

/-- An extend block. -/
def extendBlock (budget : Nat) : Reader ExtendBlock := do
  let start ← expectKeyword .extendWord
  let target ← ident .extendedType
  expect .openBrace
  let statements ← many (extendStatement budget)
  expect .closeBrace
  accept start.position
    (ExtendBlock.make target (docOf start) (statements.filterMap ExtendStatement.field?))

/-! ### Enums -/

/-- What may stand in an enum. -/
inductive EnumStatement where
  | empty
  | option (s : Setting)
  | value (v : EnumValue)
  deriving DecidableEq, Repr

namespace EnumStatement

/-- The option that a statement sets. -/
def option? : EnumStatement → Option Setting
  | option s => some s
  | _ => none

/-- The value that a statement declares. -/
def value? : EnumStatement → Option EnumValue
  | value v => some v
  | _ => none

end EnumStatement

/-- An enum value. -/
def enumValue (budget : Nat) : Reader EnumValue := do
  let start ← peek
  let name ← plainName .enumValueName
  expect .equals
  let tag ← int .enumValue
  let options ← bracketOptions budget
  expect .semicolon
  accept start.position (EnumValue.make name tag (docOf start) options)

/-- A statement of an enum. -/
def enumStatement (budget : Nat) : Reader (Option EnumStatement) := do
  let t ← peek
  match t.token with
  | .mark .closeBrace => return none
  | .mark .semicolon =>
    discard next
    return some .empty
  | .ident _ =>
    if t.token.keyword? = some .optionWord then
      discard next
      return some (.option (← optionStatement budget))
    else return some (.value (← enumValue budget))
  | _ => unexpected t .enumStatement

/-- An enum. -/
def enumType (budget : Nat) (scope : Scope) : Reader EnumType := do
  let start ← expectKeyword .enumWord
  let name ← plainName .enumName
  expect .openBrace
  let statements ← many (enumStatement budget)
  expect .closeBrace
  accept start.position
    (EnumType.make name (scope.qualify name) (docOf start)
      (statements.filterMap EnumStatement.value?) (statements.filterMap EnumStatement.option?))

/-! ### Methods -/

/-- What may stand in the braces behind a method. -/
inductive RpcStatement where
  | empty
  | option (s : Setting)
  deriving DecidableEq, Repr

/-- The option that a statement sets. -/
def RpcStatement.option? : RpcStatement → Option Setting
  | option s => some s
  | empty => none

/-- A statement in the braces behind a method. -/
def rpcStatement (budget : Nat) : Reader (Option RpcStatement) := do
  let t ← peek
  match t.token with
  | .mark .closeBrace => return none
  | .mark .semicolon =>
    discard next
    return some .empty
  | _ =>
    if t.token.keyword? = some .optionWord then
      discard next
      return some (.option (← optionStatement budget))
    else unexpected t .rpcStatement

/-- The end of a method: options in braces and perhaps a semicolon, or a semicolon. -/
def rpcOptions (budget : Nat) : Reader (List Setting) := do
  if ← eat .openBrace then
    let statements ← many (rpcStatement budget)
    expect .closeBrace
    -- Behind braces the semicolon may be left out.
    discard (eat .semicolon)
    return statements.filterMap RpcStatement.option?
  else
    expect .semicolon
    return []

/-- A method. -/
def rpc (budget : Nat) : Reader Method := do
  let start ← expectKeyword .rpcWord
  let name ← plainName .rpcName
  expect .openParen
  let request ← ident .requestType
  expect .closeParen
  discard (expectKeyword .returnsWord)
  expect .openParen
  let response ← ident .responseType
  expect .closeParen
  let options ← rpcOptions budget
  accept start.position (Method.make name (docOf start) request response options)

/-! ### Services -/

/-- What may stand in a service. -/
inductive ServiceStatement where
  | empty
  | option (s : Setting)
  | method (m : Method)
  deriving DecidableEq, Repr

namespace ServiceStatement

/-- The option that a statement sets. -/
def option? : ServiceStatement → Option Setting
  | option s => some s
  | _ => none

/-- The method that a statement declares. -/
def method? : ServiceStatement → Option Method
  | method m => some m
  | _ => none

end ServiceStatement

/-- A statement of a service. -/
def serviceStatement (budget : Nat) : Reader (Option ServiceStatement) := do
  let t ← peek
  match t.token with
  | .mark .closeBrace => return none
  | .mark .semicolon =>
    discard next
    return some .empty
  | _ =>
    match t.token.keyword? with
    | some .optionWord =>
      discard next
      return some (.option (← optionStatement budget))
    | some .rpcWord => return some (.method (← rpc budget))
    | _ => unexpected t .serviceStatement

/-- A service. -/
def service (budget : Nat) (scope : Scope) : Reader Service := do
  let start ← expectKeyword .serviceWord
  let name ← plainName .serviceName
  expect .openBrace
  let statements ← many (serviceStatement budget)
  expect .closeBrace
  accept start.position
    (Service.make name (scope.qualify name) (docOf start)
      (statements.filterMap ServiceStatement.option?)
      (statements.filterMap ServiceStatement.method?))

end ProtoSchema.Reading
