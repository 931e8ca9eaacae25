import ProtoSchema.Proofs.Lexing.Spelling

/-!
# A lexer token by token

`firstScan` is the scan of the token behind the filler that a text begins with. It alone decides how
a lexer goes on: there are a token, the end or a fault, and one equation of `Lexer.run` for each.
-/

namespace ProtoSchema

/-- What is read behind the filler that a text begins with. -/
def firstScan (text : List Char) : Scan Token :=
  Token.scan (Filler.scan text).2

theorem length_rest_firstScan_lt {text : List Char} {t : Token}
    (found : (firstScan text).outcome = .ok t) (more : t ≠ .eof) :
    (firstScan text).rest.length < text.length := by
  have tiles := congrArg List.length (Filler.scan_eq text)
  have shorter := Token.length_rest_scan_lt found more
  rw [List.length_append] at tiles
  unfold firstScan
  omega

/-- The filler, the token and the rest make up a text. -/
theorem firstScan_eq (text : List Char) :
    text = (Filler.scan text).1.flatMap Filler.spelling ++
      ((firstScan text).taken ++ (firstScan text).rest) := by
  have tiles := Token.text_scan (Filler.scan text).2
  rw [Scan.text] at tiles
  rw [firstScan, tiles, Filler.scan_eq]

/-- What holds of a text in front of which no token is read, and of one that goes on behind a token
whenever it holds there, holds of all texts. -/
theorem text_induction {motive : List Char → Prop}
    (last : ∀ text, (∀ t, (firstScan text).outcome = .ok t → t = .eof) → motive text)
    (token : ∀ text t, (firstScan text).outcome = .ok t → t ≠ .eof →
      motive (firstScan text).rest → motive text) (text : List Char) : motive text := by
  by_cases more : ∃ t, (firstScan text).outcome = .ok t ∧ t ≠ .eof
  · obtain ⟨t, found, more⟩ := more
    have := length_rest_firstScan_lt found more
    exact token text t found more (text_induction last token (firstScan text).rest)
  · exact last text fun t found => Decidable.byContradiction fun other => more ⟨t, found, other⟩
termination_by text.length

namespace Lexer

variable {l : Lexer} {t : Token}

/-- The place behind the filler. -/
def tokenPosition (l : Lexer) : Position :=
  l.position.advance ((Filler.scan l.rest).1.flatMap Filler.spelling)

/-- The documentation that the filler is. -/
def documentation (l : Lexer) : Option String :=
  (Documentation.gather l.config l.onTokenLine (Filler.scan l.rest).1).doc?

/-- The lexer behind its next token. -/
def behindToken (l : Lexer) : Lexer :=
  ⟨l.config, (firstScan l.rest).rest, l.tokenPosition.advance (firstScan l.rest).taken, true⟩

theorem next_of_token (found : (firstScan l.rest).outcome = .ok t) :
    l.next = (.ok ⟨t, l.tokenPosition, l.documentation⟩, l.behindToken) := by
  have noComment := (Token.noFiller_of_scan found).2
  unfold firstScan at found
  unfold next
  simp only [noComment, Bool.false_eq_true, if_false, found]
  rfl

/-- The token that a lexer gives is the one that is read behind the filler. -/
theorem firstScan_of_next {after : Lexer} {t : Located} (next : l.next = (.ok t, after)) :
    (firstScan l.rest).outcome = .ok t.token := by
  unfold Lexer.next at next
  simp only at next
  split at next
  next => cases next
  next =>
    split at next
    next found =>
      cases next
      exact found
    next => cases next

theorem run_of_next {after : Lexer} {t : Located} (next : l.next = (.ok t, after))
    (more : t.token ≠ .eof) : l.run = ⟨t :: after.run.tokens, after.run.ending⟩ := by
  rw [run]
  split
  next h => cases next.symm.trans h
  next h =>
    cases next.symm.trans h
    rw [dif_neg more]

theorem run_of_token (found : (firstScan l.rest).outcome = .ok t) (more : t ≠ .eof) :
    l.run = ⟨⟨t, l.tokenPosition, l.documentation⟩ :: l.behindToken.run.tokens,
      l.behindToken.run.ending⟩ :=
  run_of_next (next_of_token found) more

theorem run_of_eof (found : (firstScan l.rest).outcome = .ok .eof) :
    l.run = ⟨[], .finished ⟨.eof, l.tokenPosition, l.documentation⟩⟩ := by
  have next := next_of_token found
  rw [run]
  split
  next h => cases next.symm.trans h
  next h =>
    cases next.symm.trans h
    rw [dif_pos rfl]

/-- What a lexer complains about where no token is read. -/
def faultOf (text : List Char) (fault : Fault) : Fault :=
  if opensComment text then ⟨.unterminatedComment, []⟩ else fault

/-- A comment that is never closed is reported before anything that is scanned from it. -/
theorem next_of_fault {fault : Fault} (failed : (firstScan l.rest).outcome = .error fault) :
    l.next.1 = .error ⟨(faultOf (Filler.scan l.rest).2 fault).cause,
      l.tokenPosition.advance (faultOf (Filler.scan l.rest).2 fault).before⟩ := by
  unfold firstScan at failed
  unfold next faultOf
  simp only [failed]
  split <;> rfl

theorem run_of_fault {fault : Fault} (failed : (firstScan l.rest).outcome = .error fault) :
    l.run = ⟨[], .failed ⟨(faultOf (Filler.scan l.rest).2 fault).cause,
      l.tokenPosition.advance (faultOf (Filler.scan l.rest).2 fault).before⟩⟩ := by
  have answer := next_of_fault failed
  rw [run]
  split
  next h =>
    rw [h] at answer
    cases answer
    rfl
  next h =>
    rw [h] at answer
    cases answer

end Lexer

end ProtoSchema
