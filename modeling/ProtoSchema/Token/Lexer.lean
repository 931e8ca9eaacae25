import ProtoSchema.Documentation
import ProtoSchema.Token.Literal

/-!
# The lexer

From a text to its tokens. `Token.scan` reads one token where none but its own characters matter;
`Lexer.next` takes the filler in front of it and keeps track of position and documentation;
`Lexer.run` goes on until the text ends or a fault is met.
-/

namespace ProtoSchema

/-! ### One token -/

/-- What may begin an identifier. -/
def isIdentStart (c : Char) : Bool :=
  c.isAlpha || c = '_'

namespace Token

/-- The identifier at the beginning of a text. -/
def scanIdent (cs : List Char) : Scan Token :=
  .found (.ident (String.ofList (cs.takeWhile isIdentChar))) (cs.takeWhile isIdentChar)
    (cs.dropWhile isIdentChar)

/-- A minus sign with letters behind it; only infinity and not-a-number have a negative name. -/
def scanNegativeName (rest : List Char) : Scan Token :=
  let name := rest.takeWhile isIdentChar
  let after := rest.dropWhile isIdentChar
  if String.ofList name = "inf" ∨ String.ofList name = "nan" then
    .found (.ident (String.ofList ('-' :: name))) ('-' :: name) after
  else .failed (.illegalCharacter '-') ('-' :: name) after

/-- Whether the next character satisfies `p`. -/
def nextIs (p : Char → Bool) (cs : List Char) : Bool :=
  match cs with
  | [] => false
  | c :: _ => p c

/-- The token at the beginning of a text that does not begin with filler. -/
def scan : List Char → Scan Token
  | [] => .found .eof [] []
  | c :: rest =>
    match Mark.ofChar? c with
    | some m => .found (.mark m) [c] rest
    | none =>
      if c = '"' ∨ c = '\'' then Literal.scan c rest
      else if isIdentStart c then scanIdent (c :: rest)
      -- A point begins a name or a number, as what follows it does.
      else if c = '.' ∧ nextIs isIdentStart rest then scanIdent (c :: rest)
      else if c = '.' ∧ nextIs Char.isDigit rest then scanNumber (c :: rest)
      else if c.isDigit then scanNumber (c :: rest)
      else if c = '-' ∧ nextIs (fun d => d.isDigit || d = '.') rest then scanNumber (c :: rest)
      else if c = '-' ∧ nextIs Char.isAlpha rest then scanNegativeName rest
      else .failed (.illegalCharacter c) [] (c :: rest)

theorem text_scanIdent (cs : List Char) : (scanIdent cs).text = cs := by
  simp [scanIdent]

theorem text_scanNegativeName (rest : List Char) :
    (scanNegativeName rest).text = '-' :: rest := by
  unfold scanNegativeName
  simp only
  split <;> simp

theorem text_scan (cs : List Char) : (scan cs).text = cs := by
  unfold scan
  split
  · rfl
  · split
    · rfl
    · repeat' split
      all_goals simp_all [Literal.text_scan, text_scanIdent, text_scanNumber, text_scanNegativeName]

theorem taken_scanIdent_ne_nil {c : Char} (rest : List Char) (h : isIdentChar c) :
    (scanIdent (c :: rest)).taken ≠ [] := by
  simp [scanIdent, Scan.found, h]

theorem isIdentChar_of_isIdentStart {c : Char} (h : isIdentStart c) : isIdentChar c := by
  grind [isIdentStart, isIdentChar, Char.isAlphanum]

/-- A token that was read takes at least one character. -/
theorem taken_scan_ne_nil {c : Char} {rest : List Char} {t : Token}
    (h : (scan (c :: rest)).outcome = .ok t) : (scan (c :: rest)).taken ≠ [] := by
  unfold scan at h ⊢
  have mark (m : Mark) : (Scan.found (.mark m) [c] rest : Scan Token).taken ≠ [] := by
    simp [Scan.found]
  have name (rest : List Char) : (scanNegativeName rest).taken ≠ [] := by
    unfold scanNegativeName
    simp only
    split <;> simp [Scan.found, Scan.failed]
  have illegal (cs : List Char) :
      (Scan.failed (.illegalCharacter c) [] cs : Scan Token).outcome ≠ .ok t := by
    simp [Scan.failed]
  -- What begins an identifier also continues one, so a run of such characters is not empty.
  have point : isIdentChar '.' = true := rfl
  grind [Literal.taken_scan_ne_nil, taken_scanIdent_ne_nil, taken_scanNumber_ne_nil,
    isIdentChar_of_isIdentStart]

end Token

/-! ### Tokens one after the other -/

/-- A text that has been read up to some place. -/
structure Lexer where
  config : DocConfig
  rest : List Char
  position : Position
  /-- Whether the last token stands on the line that is being read. -/
  onTokenLine : Bool
  deriving DecidableEq, Repr

namespace Lexer

/-- A text of which nothing has been read. -/
def ofText (config : DocConfig) (text : List Char) : Lexer :=
  ⟨config, text, .start, false⟩

/-- Whether a text begins with a block comment. As filler it would have been taken, so it has no
end. -/
def opensComment : List Char → Bool
  | '/' :: '*' :: _ => true
  | _ => false

/-- The next token or the next fault, and what is left behind it. -/
def next (l : Lexer) : Except LexicalError Located × Lexer :=
  let (fillers, rest) := Filler.scan l.rest
  let position := l.position.advance (fillers.flatMap Filler.spelling)
  let gathering := Documentation.gather l.config l.onTokenLine fillers
  if opensComment rest then
    -- The comment swallows the rest of the text.
    (.error ⟨.unterminatedComment, position⟩,
      { l with
        rest := []
        position := position.advance rest
        onTokenLine := gathering.onTokenLine })
  else
    let scan := Token.scan rest
    let behind := { l with rest := scan.rest, position := position.advance scan.taken }
    match scan.outcome with
    | .ok token => (.ok ⟨token, position, gathering.doc?⟩, { behind with onTokenLine := true })
    | .error fault =>
      (.error ⟨fault.cause, position.advance fault.before⟩,
        { behind with onTokenLine := gathering.onTokenLine })

/-- A token other than the end takes at least one character. -/
theorem length_rest_next_lt {l after : Lexer} {t : Located} (h : l.next = (.ok t, after))
    (more : t.token ≠ .eof) : after.rest.length < l.rest.length := by
  have filler := congrArg List.length (Filler.scan_eq l.rest)
  have tiles := congrArg List.length (Token.text_scan (Filler.scan l.rest).2)
  unfold next at h
  simp only at h
  split at h
  · cases h
  · split at h
    next token found =>
      cases h
      cases same : (Filler.scan l.rest).2 with
      | nil =>
        -- Only the end mark is read from an empty text.
        rw [same] at found
        cases found
        exact absurd rfl more
      | cons c rest =>
        rw [same] at found tiles
        have := List.length_pos_iff.2 (Token.taken_scan_ne_nil found)
        simp only [same, Scan.text, List.length_append] at *
        omega
    · cases h

end Lexer

/-! ### All tokens of a text -/

/-- How the tokens of a text end: with the end of the text, or with a fault. -/
inductive Ending where
  | finished (endMark : Located)
  | failed (error : LexicalError)
  deriving DecidableEq, Repr

/-- The tokens of a text, without the end mark, and how they end. -/
structure TokenStream where
  tokens : List Located
  ending : Ending
  deriving DecidableEq, Repr

/-- The tokens from a place on. -/
def Lexer.run (l : Lexer) : TokenStream :=
  match _h : l.next with
  | (.error e, _) => ⟨[], .failed e⟩
  | (.ok t, after) =>
    if _more : t.token = .eof then ⟨[], .finished t⟩
    else
      let stream := after.run
      ⟨t :: stream.tokens, stream.ending⟩
termination_by l.rest.length
decreasing_by exact Lexer.length_rest_next_lt _h _more

/-- The tokens of a text. -/
def TokenStream.ofText (config : DocConfig) (text : List Char) : TokenStream :=
  (Lexer.ofText config text).run

end ProtoSchema
