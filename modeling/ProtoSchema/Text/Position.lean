/-!
# Positions in a text

A position counts lines and columns from one and bytes from zero. A line ends at a line feed and at
nothing else, a column is a character, and the offset counts bytes of the UTF-8 form.
-/

namespace ProtoSchema

/-- A place between two characters of a text. -/
structure Position where
  line : Nat
  column : Nat
  offset : Nat
  deriving DecidableEq, Repr

namespace Position

/-- The place before the first character. -/
def start : Position := ⟨1, 1, 0⟩

/-- The place behind `c`, when `c` stands at `p`. -/
def after (p : Position) (c : Char) : Position :=
  if c = '\n' then ⟨p.line + 1, 1, p.offset + 1⟩
  else ⟨p.line, p.column + 1, p.offset + c.utf8Size⟩

/-- The place behind a stretch of text that begins at `p`. -/
def advance (p : Position) (text : List Char) : Position :=
  text.foldl after p

@[simp] theorem advance_nil (p : Position) : p.advance [] = p := rfl

@[simp] theorem advance_cons (p : Position) (c : Char) (text : List Char) :
    p.advance (c :: text) = (p.after c).advance text := rfl

@[simp] theorem advance_append (p : Position) (left right : List Char) :
    p.advance (left ++ right) = (p.advance left).advance right := by
  simp [advance]

/-- Line and column, as error messages give them. -/
def text (p : Position) : String :=
  toString p.line ++ ":" ++ toString p.column

end Position

end ProtoSchema
