import ProtoSchema.Text.Blank
import ProtoSchema.Text.Lines
import ProtoSchema.Token.Filler

/-!
# Documentation

Which comments in front of a token document it, and what their text is. A comment that begins on the
line of the token before it belongs to that token and is left out.
-/

namespace ProtoSchema

/-- How comments become documentation. -/
structure DocConfig where
  /-- Whether an empty line behind comments sets them apart from what follows. -/
  blankLineDetaches : Bool := true
  /-- Whether consecutive comments are joined; otherwise the last one is kept. -/
  joinConsecutive : Bool := true
  deriving DecidableEq, Repr

namespace Documentation

/-- A text without its first character, if that is `c`. -/
def dropOne (c : Char) : List Char → List Char
  | [] => []
  | d :: rest => if d = c then rest else d :: rest

/-- The text of a line comment: no leading slashes, no space behind them, no trailing blanks. -/
def ofLineComment (text : List Char) : List Char :=
  trimEnd (dropOne ' ' (text.dropWhile (· = '/')))

/-- A line of a block comment: no blanks around it, no leading star and no space behind that. -/
def ofBlockLine (line : List Char) : List Char :=
  trimEnd (dropOne ' ' (dropOne '*' (trim line)))

/-- The text of a block comment: its lines without the empty ones at either end. -/
def ofBlockComment (text : List Char) : List Char :=
  let lines := (splitLines (dropOne '*' text)).map ofBlockLine
  joinLines (dropTailWhile List.isEmpty (lines.dropWhile List.isEmpty))

/-- What is known while the filler in front of a token is read. -/
structure Gathering where
  /-- Whether the line still is the one of the token before. -/
  onTokenLine : Bool
  /-- How many line feeds there were since the last comment. -/
  newlines : Nat
  /-- The comments so far. -/
  comments : List (List Char)
  deriving DecidableEq, Repr

namespace Gathering

/-- The state behind the token before. -/
def start (onTokenLine : Bool) : Gathering := ⟨onTokenLine, 0, []⟩

/-- A comment behind the ones so far. -/
def comment (config : DocConfig) (g : Gathering) (text : List Char) : Gathering where
  onTokenLine := g.onTokenLine
  newlines := 0
  comments :=
    if g.onTokenLine then g.comments
    else if config.joinConsecutive then g.comments ++ [text]
    else [text]

/-- One more piece of filler. -/
def step (config : DocConfig) (g : Gathering) : Filler → Gathering
  | .newline =>
    { onTokenLine := false
      newlines := g.newlines + 1
      -- The second line feed in a row leaves an empty line.
      comments := if config.blankLineDetaches && 1 ≤ g.newlines then [] else g.comments }
  | .blank _ => g
  | .lineComment text => g.comment config (ofLineComment text)
  | .blockComment text => g.comment config (ofBlockComment text)

/-- The documentation, if there is a comment. -/
def doc? (g : Gathering) : Option String :=
  match g.comments with
  | [] => none
  | comments => some (String.ofList (joinLines comments))

end Gathering

/-- What the filler between two tokens amounts to. -/
def gather (config : DocConfig) (onTokenLine : Bool) (fillers : List Filler) : Gathering :=
  fillers.foldl (Gathering.step config) (Gathering.start onTokenLine)

end Documentation

end ProtoSchema
