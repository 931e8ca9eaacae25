import ProtoSchema.Parse

/-!
# Reading at any depth

The readers of everything in which messages or bracketed values can stand, without a limit on their
nesting. Instead there is a record of what is opened and closed, which is kept up to a failure. What
can hold none of these is read as elsewhere. The readers of values and of messages are given fuel;
it lasts for as many tokens, since each level is opened by one.
-/

namespace ProtoSchema

/-- A message or a bracketed value is opened by a token, or the last one that was is closed. -/
inductive NestingEvent where
  | opened (t : Located)
  | closed
  deriving DecidableEq, Repr

namespace NestingEvent

/-- How an event changes the number of what is open. -/
def change : NestingEvent → Int
  | opened _ => 1
  | closed => -1

/-- How many more were opened than closed. -/
def level : List NestingEvent → Int
  | [] => 0
  | event :: events => event.change + level events

end NestingEvent

/-- A reader that keeps a record, also if it fails. -/
def Tracer (α : Type) : Type :=
  Ending → List Located → Except ReadError (α × List Located) × List NestingEvent

namespace Tracer

variable {α β : Type}

instance : Monad Tracer where
  pure value := fun _ tokens => (.ok (value, tokens), [])
  bind tracer f := fun ending tokens =>
    match tracer ending tokens with
    | (.ok (value, rest), events) =>
      ((f value ending rest).1, events ++ (f value ending rest).2)
    | (.error error, events) => (.error error, events)

/-- A reader that opens and closes nothing. -/
instance : MonadLift Reader Tracer where
  monadLift reader := fun ending tokens => ((reader.run ending).run tokens, [])

/-- Makes an entry in the record. -/
def enter (event : NestingEvent) : Tracer Unit :=
  fun _ tokens => (.ok ((), tokens), [event])

/-- What is opened by a token. -/
def within (t : Located) (inner : Tracer α) : Tracer α := do
  enter (.opened t)
  let value ← inner
  enter .closed
  return value

/-- Reads items as long as there are any. A round that takes no token is the last one. -/
def many (item : Tracer (Option α)) (ending : Ending) (tokens : List Located) :
    Except ReadError (List α × List Located) × List NestingEvent :=
  match item ending tokens with
  | (.error error, events) => (.error error, events)
  | (.ok (none, rest), events) => (.ok ([], rest), events)
  | (.ok (some value, rest), events) =>
    if rest.length < tokens.length then
      match many item ending rest with
      | (.error error, more) => (.error error, events ++ more)
      | (.ok (values, after), more) => (.ok (value :: values, after), events ++ more)
    else (.ok ([value], rest), events)
termination_by tokens.length

/-- Reads one item or more, with commas between them. -/
def commaSeparated (item : Tracer α) : Tracer (List α) := do
  let first ← item
  let rest ← many do
    if ← Reader.eat .comma then return some (← item)
    else return none
  return first :: rest

end Tracer

namespace Reading.Unlimited

open Reader

/-! ### Options -/

/-- The items of a list, behind the opening bracket. -/
def listItems (item : Tracer Value) : Tracer (List Value) := do
  if ← eat .closeBracket then return []
  let items ← Tracer.commaSeparated item
  expect .closeBracket
  return items

/-- The value of a map entry. -/
def mapValue (item : Tracer Value) : Tracer Value := do
  if ← eat .colon then item
  else
    let t ← peek
    if t.token = .mark .openBrace ∨ t.token = .mark .less then item
    else unexpected t (.mark .colon)

/-- The entries of a map and the mark that closes it. -/
def mapEntries (item : Tracer Value) (close : Mark) : Tracer (List Setting) :=
  Tracer.many do
    if ← eat close then return none
    let name ← mapKey
    let value ← mapValue item
    unless ← eat .comma do
      discard (eat .semicolon)
    return some ⟨name, value⟩

/-- What stands between brackets, behind the opening one, and the closing one. -/
def bracketed (item : Tracer Value) : Bracket → Tracer Value
  | .list => do return .list (← listItems item)
  | .braces => do return .map (← mapEntries item .closeBrace)
  | .angles => do return .map (← mapEntries item .greater)

/-- A value; `composite` reads one whose opening bracket has been taken. -/
def valueWith (composite : Located → Bracket → Tracer Value) : Tracer Value := do
  match (← peek).token with
  | .str _ => return valueOfBytes (← literal .optionValue)
  | _ =>
    let t ← next
    match t.token with
    | .int n => return .int n
    | .float x => return .float x
    | .ident name => return .ident name
    | .mark m =>
      match Bracket.ofMark? m with
      | some bracket => composite t bracket
      | none => unexpected t .optionValue
    | _ => unexpected t .optionValue

/-- A value. -/
def value : Nat → Tracer Value
  | 0 => valueWith fun t _ => tooDeep t
  | fuel + 1 => valueWith fun t bracket => .within t (bracketed (value fuel) bracket)

/-- A name, an equals sign and a value. -/
def setting (fuel : Nat) : Tracer Setting := do
  let name ← optionName
  expect .equals
  return ⟨name, ← value fuel⟩

/-- What follows the keyword of an option statement. -/
def optionStatement (fuel : Nat) : Tracer Setting := do
  let option ← setting fuel
  expect .semicolon
  return option

/-- The options in brackets, if there are any. -/
def bracketOptions (fuel : Nat) : Tracer (List Setting) := do
  if ← eat .openBracket then
    let options ← Tracer.commaSeparated (setting fuel)
    expect .closeBracket
    return options
  else return []

/-! ### Fields and extend blocks -/

/-- What a field declaration has behind its type. -/
def fieldRest (fuel : Nat) (start : Located) (label : Label) (typeName : String) :
    Tracer Field := do
  let name ← plainName .fieldName
  expect .equals
  let tag ← int .fieldTag
  let options ← bracketOptions fuel
  expect .semicolon
  accept start.position (Field.make label typeName name tag (docOf start) options)

/-- A field whose label comes next. -/
def labelledField (fuel : Nat) (label : Label) : Tracer Field := do
  let start ← next
  let typeName ← ident .fieldType
  fieldRest fuel start label typeName

/-- A map field, whose first word comes next. -/
def mapField (fuel : Nat) : Tracer Field := do
  let start ← next
  expect .less
  let key ← ident .mapKeyType
  expect .comma
  let value ← ident .mapValueType
  expect .greater
  fieldRest fuel start .repeated ("map<" ++ key ++ ", " ++ value ++ ">")

/-- A statement of an extend block. -/
def extendStatement (fuel : Nat) : Tracer (Option ExtendStatement) := do
  let t ← peek
  match t.token with
  | .mark .closeBrace => return none
  | .mark .semicolon =>
    discard next
    return some .empty
  | _ =>
    match t.token.keyword?.bind labelOfKeyword? with
    | some label => return some (.field (← labelledField fuel label))
    | none => unexpected t .extendStatement

/-- An extend block. -/
def extendBlock (fuel : Nat) : Tracer ExtendBlock := do
  let start ← expectKeyword .extendWord
  let target ← ident .extendedType
  expect .openBrace
  let statements ← Tracer.many (extendStatement fuel)
  expect .closeBrace
  accept start.position
    (ExtendBlock.make target (docOf start) (statements.filterMap ExtendStatement.field?))

/-! ### Enums -/

/-- An enum value. -/
def enumValue (fuel : Nat) : Tracer EnumValue := do
  let start ← peek
  let name ← plainName .enumValueName
  expect .equals
  let tag ← int .enumValue
  let options ← bracketOptions fuel
  expect .semicolon
  accept start.position (EnumValue.make name tag (docOf start) options)

/-- A statement of an enum. -/
def enumStatement (fuel : Nat) : Tracer (Option EnumStatement) := do
  let t ← peek
  match t.token with
  | .mark .closeBrace => return none
  | .mark .semicolon =>
    discard next
    return some .empty
  | .ident _ =>
    if t.token.keyword? = some .optionWord then
      discard next
      return some (.option (← optionStatement fuel))
    else return some (.value (← enumValue fuel))
  | _ => unexpected t .enumStatement

/-- An enum. -/
def enumType (fuel : Nat) (scope : Scope) : Tracer EnumType := do
  let start ← expectKeyword .enumWord
  let name ← plainName .enumName
  expect .openBrace
  let statements ← Tracer.many (enumStatement fuel)
  expect .closeBrace
  accept start.position
    (EnumType.make name (scope.qualify name) (docOf start)
      (statements.filterMap EnumStatement.value?) (statements.filterMap EnumStatement.option?))

/-! ### Services -/

/-- A statement in the braces behind a method. -/
def rpcStatement (fuel : Nat) : Tracer (Option RpcStatement) := do
  let t ← peek
  match t.token with
  | .mark .closeBrace => return none
  | .mark .semicolon =>
    discard next
    return some .empty
  | _ =>
    if t.token.keyword? = some .optionWord then
      discard next
      return some (.option (← optionStatement fuel))
    else unexpected t .rpcStatement

/-- The end of a method. -/
def rpcOptions (fuel : Nat) : Tracer (List Setting) := do
  if ← eat .openBrace then
    let statements ← Tracer.many (rpcStatement fuel)
    expect .closeBrace
    discard (eat .semicolon)
    return statements.filterMap RpcStatement.option?
  else
    expect .semicolon
    return []

/-- A method. -/
def rpc (fuel : Nat) : Tracer Method := do
  let start ← expectKeyword .rpcWord
  let name ← plainName .rpcName
  expect .openParen
  let request ← ident .requestType
  expect .closeParen
  discard (expectKeyword .returnsWord)
  expect .openParen
  let response ← ident .responseType
  expect .closeParen
  let options ← rpcOptions fuel
  accept start.position (Method.make name (docOf start) request response options)

/-- A statement of a service. -/
def serviceStatement (fuel : Nat) : Tracer (Option ServiceStatement) := do
  let t ← peek
  match t.token with
  | .mark .closeBrace => return none
  | .mark .semicolon =>
    discard next
    return some .empty
  | _ =>
    match t.token.keyword? with
    | some .optionWord =>
      discard next
      return some (.option (← optionStatement fuel))
    | some .rpcWord => return some (.method (← rpc fuel))
    | _ => unexpected t .serviceStatement

/-- A service. -/
def service (fuel : Nat) (scope : Scope) : Tracer Service := do
  let start ← expectKeyword .serviceWord
  let name ← plainName .serviceName
  expect .openBrace
  let statements ← Tracer.many (serviceStatement fuel)
  expect .closeBrace
  accept start.position
    (Service.make name (scope.qualify name) (docOf start)
      (statements.filterMap ServiceStatement.option?)
      (statements.filterMap ServiceStatement.method?))

/-! ### Messages -/

/-- A statement of a message; `message` reads the messages inside it. -/
def messageStatement (message : Tracer Message) (fuel : Nat) (scope : Scope) :
    Tracer (Option MessageStatement) := do
  let t ← peek
  match t.token with
  | .mark .closeBrace => return none
  | .mark .semicolon =>
    discard next
    return some .empty
  | .ident name =>
    if name = "map" then return some (.field (← mapField fuel))
    else
      match Keyword.ofSpelling? name with
      | some .messageWord => return some (.nested (.message (← message)))
      | some .enumWord => return some (.nested (.enumType (← enumType fuel scope)))
      | some .extendWord => return some (.extend (← extendBlock fuel))
      | some .extensionsWord => return some (.extensions (← extensions))
      | some .optionWord =>
        discard next
        return some (.option (← optionStatement fuel))
      | some k =>
        match labelOfKeyword? k with
        | some label => return some (.field (← labelledField fuel label))
        | none => unexpected t .messageStatement
      | none => unexpected t .messageStatement
  | _ => unexpected t .messageStatement

/-- The name of a message and what stands in its braces; `message` reads the messages inside it. -/
def messageBody (message : Scope → Tracer Message) (fuel : Nat) (scope : Scope) :
    Tracer (String × List MessageStatement) := do
  let name ← plainName .messageName
  expect .openBrace
  let inner := scope ++ [name]
  let statements ← Tracer.many (messageStatement (message inner) fuel inner)
  expect .closeBrace
  return (name, statements)

/-- A message, which is open from its keyword on. -/
def message : Nat → Scope → Tracer Message
  | 0, _ => do
    let start ← expectKeyword .messageWord
    tooDeep start
  | fuel + 1, scope => do
    let start ← expectKeyword .messageWord
    let (name, statements) ← Tracer.within start (messageBody (message fuel) fuel scope)
    accept start.position
      (Message.make name (scope.qualify name) (docOf start) (bodyOfStatements statements))

/-! ### Files -/

/-- A statement of a file. -/
def fileStatement (fuel : Nat) (scope : Scope) : Tracer (Option FileStatement) := do
  let t ← peek
  if t.token = .eof then return none
  if t.token = .mark .semicolon then
    discard next
    return some .empty
  match t.token.keyword? with
  | some .packageWord => return none
  | some .importWord => return some (← importStatement)
  | some .optionWord =>
    discard next
    return some (.option (← optionStatement fuel))
  | some .messageWord => return some (.type t.position (.message (← message fuel scope)))
  | some .enumWord => return some (.type t.position (.enumType (← enumType fuel scope)))
  | some .extendWord => return some (.extend (← extendBlock fuel))
  | some .serviceWord => return some (.service t.position (← service fuel scope))
  | _ => unexpected t .fileStatement

/-- The statements behind a package declaration. -/
def statementsOf (fuel : Nat) (package : String) : Tracer (List FileStatement) := do
  let statements ← Tracer.many (fileStatement fuel [package])
  match ← packageStatement? with
  | none => return statements
  | some (position, _) => accept position (.error (.duplicatePackage package))

/-- A file, up to its end. -/
def fileText (fuel : Nat) : Tracer FileText := do
  let version ← versionStatement?
  let before ← Tracer.many (fileStatement fuel [])
  match ← packageStatement? with
  | none => return ⟨version, before, none⟩
  | some (_, package) => return ⟨version, before, some (package, ← statementsOf fuel package)⟩

/-- A file that obeys the rules. -/
def file (fuel : Nat) (name : String) : Tracer SchemaFile := do
  let text ← fileText fuel
  match SchemaFile.make name text.body with
  | .ok f => return f
  | .error violation => accept (text.positionOf violation) (.error violation)

end Reading.Unlimited

/-- What a text is without a limit on nesting, and the record of what is opened and closed. -/
def parseUnlimited (config : DocConfig) (name : String) (text : List Char) :
    Except ReadError SchemaFile × List NestingEvent :=
  let stream := TokenStream.ofText config text
  let (outcome, events) :=
    Reading.Unlimited.file stream.tokens.length name stream.ending stream.tokens
  (outcome.map (·.1), events)

end ProtoSchema
