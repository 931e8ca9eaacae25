/-!
# Blank characters

The characters with the Unicode property White_Space, and trimming by them.
-/

namespace ProtoSchema

/-- The code points with the property White_Space, as inclusive ranges. -/
def blankRanges : List (Nat × Nat) :=
  [(0x9, 0xd), (0x20, 0x20), (0x85, 0x85), (0xa0, 0xa0), (0x1680, 0x1680), (0x2000, 0x200a),
    (0x2028, 0x2029), (0x202f, 0x202f), (0x205f, 0x205f), (0x3000, 0x3000)]

/-- Whether a character is white space in the sense of Unicode. -/
def isBlank (c : Char) : Bool :=
  blankRanges.any fun range => range.1 ≤ c.toNat && c.toNat ≤ range.2

/-- A list without the elements at its end that satisfy `p`. -/
def dropTailWhile {α : Type} (p : α → Bool) : List α → List α
  | [] => []
  | x :: rest =>
    match dropTailWhile p rest with
    | [] => if p x then [] else [x]
    | kept => x :: kept

/-- A text without its trailing blanks. -/
def trimEnd (text : List Char) : List Char :=
  dropTailWhile isBlank text

/-- A text without blanks on either side. -/
def trim (text : List Char) : List Char :=
  trimEnd (text.dropWhile isBlank)

end ProtoSchema
