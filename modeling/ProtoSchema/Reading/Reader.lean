import ProtoSchema.Reading.Failure
import ProtoSchema.Token.Lexer

/-!
# Readers

A reader takes tokens from the front of a token stream. It sees a fault of the lexer only when it
looks at the place where the fault is, and at the end of the text it sees the end mark.
-/

namespace ProtoSchema

/-- A computation that takes tokens and may fail; how the tokens end is known to it throughout. -/
abbrev Reader := ReaderT Ending (StateT (List Located) (Except ReadError))

namespace Reader

variable {α β : Type}

/-- What a reader makes of a whole stream; tokens may be left over. -/
def ofStream (reader : Reader α) (stream : TokenStream) : Except ReadError α :=
  ((reader.run stream.ending).run stream.tokens).map (·.1)

/-- The next token, which is not taken. -/
def peek : Reader Located := do
  match ← get with
  | t :: _ => return t
  | [] =>
    match ← read with
    | .finished endMark => return endMark
    -- Only now is the fault met: whatever stands in front of it may have failed before.
    | .failed error => throw (.lexical error)

/-- The next token. -/
def next : Reader Located := do
  let t ← peek
  modify List.tail
  return t

/-! ### How a reader runs -/

/-- A reader that only answers takes nothing. -/
theorem run_pure (value : α) (ending : Ending) (tokens : List Located) :
    ((pure value : Reader α).run ending).run tokens = .ok (value, tokens) := rfl

/-- A reader that only fails does so on every stream. -/
theorem run_throw (error : ReadError) (ending : Ending) (tokens : List Located) :
    ((throw error : Reader α).run ending).run tokens = .error error := rfl

/-- The second reader goes on where the first one stopped, unless that one failed. -/
theorem run_bind (reader : Reader α) (f : α → Reader β) (ending : Ending) (tokens : List Located) :
    ((reader >>= f).run ending).run tokens =
      match (reader.run ending).run tokens with
      | .ok (value, rest) => ((f value).run ending).run rest
      | .error error => .error error := by
  rw [ReaderT.run_bind, StateT.run_bind]
  cases (reader.run ending).run tokens <;> rfl

theorem run_peek_cons (t : Located) (ending : Ending) (tokens : List Located) :
    (peek.run ending).run (t :: tokens) = .ok (t, t :: tokens) := rfl

theorem run_next_cons (t : Located) (ending : Ending) (tokens : List Located) :
    (next.run ending).run (t :: tokens) = .ok (t, tokens) := rfl

/-! ### Tokens of each kind -/

/-- Fails at a token that does not fit. -/
def unexpected (t : Located) (expected : Expectation) : Reader α :=
  throw (.unexpected ⟨t.position, expected, t.token⟩)

/-- The outcome of a check, whose violation is at a place. -/
def accept (position : Position) : Except Violation α → Reader α
  | .ok value => return value
  | .error violation => throw (.violation violation position)

/-- Takes the next token if it is a certain mark. -/
def eat (m : Mark) : Reader Bool := do
  let t ← peek
  if t.token = .mark m then
    discard next
    return true
  else return false

theorem run_eat_cons (m : Mark) (t : Located) (ending : Ending) (tokens : List Located) :
    ((eat m).run ending).run (t :: tokens) =
      if t.token = .mark m then .ok (true, tokens) else .ok (false, t :: tokens) := by
  simp only [eat, run_bind, run_peek_cons]
  split <;> rfl

/-- Takes the next token if it is a certain keyword. -/
def eatKeyword (k : Keyword) : Reader Bool := do
  let t ← peek
  if t.token.keyword? = some k then
    discard next
    return true
  else return false

/-- Takes a certain mark. -/
def expect (m : Mark) : Reader Unit := do
  let t ← next
  if t.token = .mark m then return ()
  else unexpected t (.mark m)

/-- Takes a certain keyword. -/
def expectKeyword (k : Keyword) : Reader Located := do
  let t ← next
  if t.token.keyword? = some k then return t
  else unexpected t (.keyword k)

/-- Takes an identifier, dotted or not. -/
def ident (expected : Expectation) : Reader String := do
  let t ← next
  match t.token with
  | .ident name => return name
  | _ => unexpected t expected

/-- Whether an identifier can name a declaration: it has no dot and no sign. -/
def isPlainName (name : String) : Bool :=
  '.' ∉ name.toList && name.toList.head? ≠ some '-'

/-- Takes the name of a declaration. -/
def plainName (expected : Expectation) : Reader String := do
  let t ← next
  match t.token with
  | .ident name => if isPlainName name then return name else unexpected t expected
  | _ => unexpected t expected

/-- Takes an integer. -/
def int (expected : Expectation) : Reader Int := do
  let t ← next
  match t.token with
  | .int n => return n
  | _ => unexpected t expected

/-! ### Repetition -/

/-- Reads items as long as there are any. A round that takes no token is the last one. -/
def many (item : Reader (Option α)) (ending : Ending) (tokens : List Located) :
    Except ReadError (List α × List Located) :=
  match (item.run ending).run tokens with
  | .error error => .error error
  | .ok (none, rest) => .ok ([], rest)
  | .ok (some value, rest) =>
    if rest.length < tokens.length then
      match many item ending rest with
      | .error error => .error error
      | .ok (values, after) => .ok (value :: values, after)
    else .ok ([value], rest)
termination_by tokens.length

/-- Reads one item or more, with commas between them. -/
def commaSeparated (item : Reader α) : Reader (List α) := do
  let first ← item
  let rest ← many do
    if ← eat .comma then return some (← item)
    else return none
  return first :: rest

/-! ### Literals -/

/-- Takes a literal, which may come in several adjacent parts. -/
def literal (expected : Expectation) : Reader (List UInt8) := do
  let t ← next
  match t.token with
  | .str bytes =>
    let more ← many do
      match (← peek).token with
      | .str bytes =>
        discard next
        return some bytes
      | _ => return none
    return bytes ++ more.flatten
  | _ => unexpected t expected

/-- Takes a literal that must be text. -/
def textLiteral (role : TextRole) : Reader String := do
  -- What is no text is reported at the first part of the literal.
  let t ← peek
  let bytes ← literal (.literal role)
  match Utf8.decode? bytes with
  | some text => return text
  | none => throw (.unexpected ⟨t.position, .textLiteral role, .str bytes⟩)

/-- The documentation in front of a token, empty if there is none. -/
def docOf (t : Located) : String := t.doc.getD ""

end Reader

end ProtoSchema
