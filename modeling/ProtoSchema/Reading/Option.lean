import ProtoSchema.Reading.Reader
import ProtoSchema.Schema.Value

/-!
# Reading options

Names and values of options, option statements, and the options in brackets behind a field or an
enum value. A reader of values is given how many bracketed values may still be opened inside each
other.
-/

namespace ProtoSchema.Reading

open Reader

/-- How many messages and bracketed values may stand inside each other. -/
def nestingLimit : Nat := 100

/-- Fails at a token that opens one level too many. -/
def tooDeep {α : Type} (t : Located) : Reader α :=
  unexpected t (.nesting nestingLimit)

/-- Whether an identifier continues an option name. -/
def isSuffix (name : String) : Bool :=
  name.toList.head? = some '.'

/-- The identifiers that continue an option name. -/
def optionNameSuffixes : Reader (List String) :=
  many do
    match (← peek).token with
    | .ident name =>
      if isSuffix name then
        discard next
        return some name
      else return none
    | _ => return none

/-- A name in parentheses, behind the opening one. -/
def parenthesizedName : Reader String := do
  let inner ← ident .extensionName
  expect .closeParen
  return "(" ++ inner ++ ")"

/-- The name of an option: an identifier, or one in parentheses and a path behind it. -/
def optionName : Reader String := do
  let t ← next
  let base ←
    match t.token with
    | .ident name => pure name
    | .mark .openParen => parenthesizedName
    | _ => unexpected t .optionName
  return base ++ String.join (← optionNameSuffixes)

/-- The kinds of brackets around a value. -/
inductive Bracket where
  | list
  | braces
  | angles
  deriving DecidableEq, Repr

/-- The bracket that a mark opens. -/
def Bracket.ofMark? : Mark → Option Bracket
  | .openBracket => some list
  | .openBrace => some braces
  | .less => some angles
  | _ => none

/-- The value of a literal: text if its bytes are. -/
def valueOfBytes (bytes : List UInt8) : Value :=
  match Utf8.decode? bytes with
  | some text => .str text
  | none => .bytes bytes

/-- The items of a list, behind the opening bracket. -/
def listItems (item : Reader Value) : Reader (List Value) := do
  if ← eat .closeBracket then return []
  let items ← commaSeparated item
  expect .closeBracket
  return items

/-- The key of a map entry: the name of an option, or a name in brackets. -/
def mapKey : Reader String := do
  if ← eat .openBracket then
    let inner ← ident .extensionName
    expect .closeBracket
    return "[" ++ inner ++ "]"
  else optionName

/-- The value of a map entry; in front of a map the colon may be left out. -/
def mapValue (item : Reader Value) : Reader Value := do
  if ← eat .colon then item
  else
    let t ← peek
    if t.token = .mark .openBrace ∨ t.token = .mark .less then item
    else unexpected t (.mark .colon)

/-- The entries of a map and the mark that closes it. A comma or a semicolon may follow an entry. -/
def mapEntries (item : Reader Value) (close : Mark) : Reader (List Setting) :=
  many do
    -- The closing mark is looked for in front of each entry, so a comma may stand in front of it.
    if ← eat close then return none
    let name ← mapKey
    let value ← mapValue item
    unless ← eat .comma do
      discard (eat .semicolon)
    return some ⟨name, value⟩

/-- What stands between brackets, behind the opening one. -/
def bracketed (item : Reader Value) : Bracket → Reader Value
  | .list => Value.list <$> listItems item
  | .braces => Value.map <$> mapEntries item .closeBrace
  | .angles => Value.map <$> mapEntries item .greater

/-- A value; `composite` reads one whose opening bracket has been taken. -/
def valueWith (composite : Located → Bracket → Reader Value) : Reader Value := do
  match (← peek).token with
  -- A literal is not taken yet, for it may have further parts.
  | .str _ => return valueOfBytes (← literal .optionValue)
  | _ =>
    let t ← next
    match t.token with
    | .int n => return .int n
    | .float x => return .float x
    | .ident name => return .ident name
    | .mark m =>
      match Bracket.ofMark? m with
      | some bracket => composite t bracket
      | none => unexpected t .optionValue
    | _ => unexpected t .optionValue

/-- A value with at most so many brackets inside each other. -/
def value : Nat → Reader Value
  | 0 => valueWith fun t _ => tooDeep t
  | budget + 1 => valueWith fun _ bracket => bracketed (value budget) bracket

/-- A name, an equals sign and a value. -/
def setting (budget : Nat) : Reader Setting := do
  let name ← optionName
  expect .equals
  return ⟨name, ← value budget⟩

/-- What follows the keyword of an option statement. -/
def optionStatement (budget : Nat) : Reader Setting := do
  let option ← setting budget
  expect .semicolon
  return option

/-- The options in brackets, if there are any. -/
def bracketOptions (budget : Nat) : Reader (List Setting) := do
  if ← eat .openBracket then
    let options ← commaSeparated (setting budget)
    expect .closeBracket
    return options
  else return []

end ProtoSchema.Reading
