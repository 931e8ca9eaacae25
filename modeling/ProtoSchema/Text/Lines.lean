/-!
# Lines of a text

A text falls into lines at each line feed, so that it has one line more than line feeds; putting the
lines back together gives the text.
-/

namespace ProtoSchema

/-- The lines of a text, the last of them empty when the text ends in a line feed. -/
def splitLines : List Char → List (List Char)
  | [] => [[]]
  | c :: rest =>
    if c = '\n' then [] :: splitLines rest
    else
      match splitLines rest with
      | [] => [[c]]
      | line :: lines => (c :: line) :: lines

/-- Lines put together, a line feed between each two. -/
def joinLines (lines : List (List Char)) : List Char :=
  ['\n'].intercalate lines

theorem splitLines_ne_nil (text : List Char) : splitLines text ≠ [] := by
  cases text with
  | nil => simp [splitLines]
  | cons c rest =>
    simp only [splitLines]
    split
    · simp
    · split <;> simp

theorem joinLines_splitLines (text : List Char) : joinLines (splitLines text) = text := by
  induction text with
  | nil => rfl
  | cons c rest ih =>
    have nonempty := splitLines_ne_nil rest
    simp only [splitLines]
    cases h : splitLines rest with
    | nil => contradiction
    | cons line lines =>
      rw [h] at ih
      split
      · subst_vars
        cases lines <;> simp [joinLines, List.intercalate]
      · rw [← ih]
        cases lines <;> simp [joinLines, List.intercalate]

end ProtoSchema
