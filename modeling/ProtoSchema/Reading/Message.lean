import ProtoSchema.Reading.Declaration

/-!
# Reading messages

Messages, which hold declarations of every kind and further messages. A reader of messages is given
how many messages and bracketed values may still be opened inside each other.
-/

namespace ProtoSchema.Reading

open Reader

/-- What may stand in a message. -/
inductive MessageStatement where
  | empty
  | field (f : Field)
  | nested (t : TypeDecl)
  | extend (e : ExtendBlock)
  | extensions (rs : List ExtensionRange)
  | option (s : Setting)
  deriving DecidableEq, Repr

namespace MessageStatement

/-- The field that a statement declares. -/
def field? : MessageStatement → Option Field
  | field f => some f
  | _ => none

/-- The type that a statement declares. -/
def nested? : MessageStatement → Option TypeDecl
  | nested t => some t
  | _ => none

/-- The extend block that a statement is. -/
def extend? : MessageStatement → Option ExtendBlock
  | extend e => some e
  | _ => none

/-- The extension ranges that a statement declares. -/
def ranges : MessageStatement → List ExtensionRange
  | extensions rs => rs
  | _ => []

/-- The option that a statement sets. -/
def option? : MessageStatement → Option Setting
  | option s => some s
  | _ => none

end MessageStatement

/-- Statements sorted by kind. -/
def bodyOfStatements (statements : List MessageStatement) : MessageBody where
  fields := statements.filterMap MessageStatement.field?
  nested := statements.filterMap MessageStatement.nested?
  extendBlocks := statements.filterMap MessageStatement.extend?
  extensions := statements.flatMap MessageStatement.ranges
  options := statements.filterMap MessageStatement.option?

/-- A statement of a message; `message` reads the messages inside it. -/
def messageStatement (message : Reader Message) (budget : Nat) (scope : Scope) :
    Reader (Option MessageStatement) := do
  let t ← peek
  match t.token with
  | .mark .closeBrace => return none
  | .mark .semicolon =>
    discard next
    return some .empty
  | .ident name =>
    -- The word is no keyword: elsewhere it is a name like any other.
    if name = "map" then return some (.field (← mapField budget))
    else
      match Keyword.ofSpelling? name with
      | some .messageWord => return some (.nested (.message (← message)))
      | some .enumWord => return some (.nested (.enumType (← enumType budget scope)))
      | some .extendWord => return some (.extend (← extendBlock budget))
      | some .extensionsWord => return some (.extensions (← extensions))
      | some .optionWord =>
        discard next
        return some (.option (← optionStatement budget))
      | some k =>
        match labelOfKeyword? k with
        | some label => return some (.field (← labelledField budget label))
        | none => unexpected t .messageStatement
      | none => unexpected t .messageStatement
  | _ => unexpected t .messageStatement

/-- A message with at most so many messages and brackets inside each other. -/
def message : Nat → Scope → Reader Message
  | 0, _ => do
    let start ← expectKeyword .messageWord
    tooDeep start
  | budget + 1, scope => do
    let start ← expectKeyword .messageWord
    let name ← plainName .messageName
    expect .openBrace
    -- What stands inside is qualified by the name of the message as well.
    let inner := scope ++ [name]
    let statements ← many (messageStatement (message budget inner) budget inner)
    expect .closeBrace
    accept start.position
      (Message.make name (scope.qualify name) (docOf start) (bodyOfStatements statements))

end ProtoSchema.Reading
