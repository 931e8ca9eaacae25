/-!
# Filler between tokens

Between two tokens stand line feeds, other blanks and comments. `Filler.scan` takes as many of them
as there are; it stops in front of a block comment that is never closed. `scan_eq` says that the
fillers, as they are spelled, and what is left make up the text.
-/

namespace ProtoSchema

/-- One piece of what may stand between two tokens. -/
inductive Filler where
  | newline
  | blank (c : Char)
  | lineComment (text : List Char)
  | blockComment (text : List Char)
  deriving DecidableEq, Repr

namespace Filler

/-- A piece as it stands in the text. -/
def spelling : Filler → List Char
  | newline => ['\n']
  | blank c => [c]
  | lineComment text => '/' :: '/' :: text
  | blockComment text => '/' :: '*' :: text ++ ['*', '/']

/-- The blanks other than the line feed. -/
def isSpace (c : Char) : Bool :=
  c = ' ' || c = '\t' || c = '\r' || c = '\x0b' || c = '\x0c'

/-- The text of a block comment and what follows its end, if it has one. -/
def splitAtClose : List Char → Option (List Char × List Char)
  | [] => none
  | '*' :: '/' :: rest => some ([], rest)
  | c :: rest => (splitAtClose rest).map fun (text, after) => (c :: text, after)

/-- The piece that a text begins with, and the rest. -/
def first? : List Char → Option (Filler × List Char)
  | [] => none
  | '\n' :: rest => some (newline, rest)
  | '/' :: '/' :: rest =>
    some (lineComment (rest.takeWhile (· ≠ '\n')), rest.dropWhile (· ≠ '\n'))
  -- A block comment without an end is no filler.
  | '/' :: '*' :: rest => (splitAtClose rest).map fun (text, after) => (blockComment text, after)
  | c :: rest => if isSpace c then some (blank c, rest) else none

theorem splitAtClose_eq {cs text after : List Char} (h : splitAtClose cs = some (text, after)) :
    cs = text ++ '*' :: '/' :: after := by
  fun_induction splitAtClose cs generalizing text with
  | case1 => cases h
  | case2 rest => cases h; rfl
  | case3 c rest _ ih =>
    obtain ⟨⟨text', after'⟩, found, same⟩ := Option.map_eq_some_iff.1 h
    cases same
    rw [ih found]
    rfl

theorem first?_eq {cs rest : List Char} {f : Filler} (h : first? cs = some (f, rest)) :
    cs = f.spelling ++ rest := by
  unfold first? at h
  split at h
  · cases h
  · cases h; rfl
  · cases h; simp [spelling]
  · obtain ⟨⟨text, after⟩, found, same⟩ := Option.map_eq_some_iff.1 h
    cases same
    rw [splitAtClose_eq found]
    simp [spelling]
  · split at h
    · cases h; rfl
    · cases h

theorem length_spelling_pos (f : Filler) : 0 < f.spelling.length := by
  cases f <;> simp [spelling]

theorem length_first?_lt {cs rest : List Char} {f : Filler} (h : first? cs = some (f, rest)) :
    rest.length < cs.length := by
  have := length_spelling_pos f
  rw [first?_eq h, List.length_append]
  omega

/-- The pieces that a text begins with, and the rest. -/
def scan (cs : List Char) : List Filler × List Char :=
  match _h : first? cs with
  | none => ([], cs)
  | some (f, rest) =>
    let (fillers, after) := scan rest
    (f :: fillers, after)
termination_by cs.length
decreasing_by exact length_first?_lt _h

theorem scan_eq (cs : List Char) : (scan cs).1.flatMap spelling ++ (scan cs).2 = cs := by
  fun_induction scan cs with
  | case1 => rfl
  | case2 cs f rest h fillers after same ih =>
    rw [same] at ih
    rw [List.flatMap_cons, List.append_assoc, ih, first?_eq h]

theorem first?_scan (cs : List Char) : first? (scan cs).2 = none := by
  fun_induction scan cs with
  | case1 cs h => exact h
  | case2 cs f rest h fillers after same ih => simpa only [same] using ih

end Filler

end ProtoSchema
