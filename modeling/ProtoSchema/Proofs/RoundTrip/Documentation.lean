import Mathlib.Logic.Function.Iterate
import ProtoSchema.Proofs.Lexing.Documentation
import ProtoSchema.Proofs.Lexing.Shape
import ProtoSchema.Proofs.Lexing.Tiling

/-!
# Documentation is read back

What a lexer reports as documentation is a text no line of which ends in a blank. Such a text is
written as line comments, and where these stand at the beginning of a line, the token below them is
documented by the same text again. So the texts without trailing blanks are all that documentation
can be.
-/

namespace ProtoSchema

open Documentation

/-! ### What is reported -/

/-- Whatever a lexer reports, wherever it stands, no line of it ends in a blank. -/
theorem Lexer.isTrimmed_of_next {l : Lexer} {t : Located} {doc : String}
    (reported : l.next.1 = .ok t) (documents : t.doc = some doc) : IsTrimmed doc := by
  have next : l.next = (.ok t, l.next.2) := Prod.ext reported rfl
  rw [(eq_of_next next).1] at documents
  have documents : l.documentation = some doc := documents
  have trimmed : (gather l.config l.onTokenLine (Filler.scan l.rest).1).IsTrimmed :=
    (Gathering.isTrimmed_start l.onTokenLine).scan l.rest
  have same : (gather l.config l.onTokenLine (Filler.scan l.rest).1).doc = doc := by
    rw [Gathering.doc, ← documentation, documents]
    rfl
  exact same ▸ trimmed.doc

/-! ### What is written -/

theorem Lines.laidOut_iterate_indent (n k : Nat) (lines : Lines) :
    Lines.laidOut n (lines.map indent^[k]) = lines.laidOut (n + 2 * k) := by
  induction k generalizing n lines with
  | zero => simp
  | succ k ih =>
    have split : lines.map indent^[k + 1] = (lines.map indent).map indent^[k] := by
      rw [List.map_map, Function.iterate_succ]
    have steps : n + 2 * k + 2 = n + 2 * (k + 1) := by omega
    rw [split, ih, laidOut_indent, steps]

/-- The text of documentation and a line below it, both so many steps further in. -/
def documentedText (doc line : String) (k : Nat) : List Char :=
  (Lines.text ((docLines doc ++ [line]).map indent^[k])).toList

theorem documentedText_eq (doc line : String) (k : Nat) :
    documentedText doc line k =
      Lines.laidOut (2 * k) (docLines doc) ++ (List.replicate (2 * k) ' ' ++ line.toList) := by
  have nonempty : (docLines doc ++ [line]).map indent^[k] ≠ [] := by simp
  -- A line feed is put behind each line but the last.
  refine List.append_cancel_right (?_ : _ ++ ['\n'] = _ ++ ['\n'])
  rw [documentedText, Lines.toList_text nonempty, Lines.laidOut_iterate_indent, Nat.zero_add,
    Lines.laidOut_append]
  simp [Lines.laidOut]

/-! ### What is read back -/

/-- Behind filler that has been gathered a lexer goes on as if it stood there. -/
theorem Documentation.Gathers.scan_eq {config : DocConfig} {g g' : Gathering}
    {text rest : List Char} (h : Gathers config g text g' rest) :
    (Filler.scan text).1.foldl (Gathering.step config) g =
        (Filler.scan rest).1.foldl (Gathering.step config) g' ∧
      (Filler.scan text).2 = (Filler.scan rest).2 := by
  induction h with
  | done => exact ⟨rfl, rfl⟩
  | filler first _ ih =>
    rw [Filler.scan_of_first? first]
    exact ih

theorem Lexer.next_of_gathers {l : Lexer} {g : Gathering} {text : List Char} {token : Token}
    (gathered : Gathers l.config (.start l.onTokenLine) l.rest g text)
    (found : (Token.scan text).outcome = .ok token) :
    l.next = (.ok ⟨token, l.tokenPosition, g.doc?⟩, l.behindToken) := by
  obtain ⟨filler, behind⟩ := gathered.scan_eq
  have noFiller := Filler.scan_of_none (Token.noFiller_of_scan found).1
  rw [noFiller] at filler behind
  have doc : l.documentation = g.doc? := congrArg Gathering.doc? filler
  rw [← doc]
  refine next_of_token ?_
  rw [firstScan, behind]
  exact found

/-- A lexer that comes to the beginning of a line reports the documentation written there. -/
theorem Lexer.next_documented {l : Lexer} {doc line : String} {k newlines : Nat} {token : Token}
    (trimmed : IsTrimmed doc) (config : l.config = {})
    (begins : Gathers {} (.start l.onTokenLine) l.rest ⟨false, newlines, []⟩
      (documentedText doc line k))
    (found : (Token.scan line.toList).outcome = .ok token) :
    l.next =
      (.ok ⟨token, l.tokenPosition, if doc = "" then none else some doc⟩, l.behindToken) := by
  obtain ⟨g, reported, gathered⟩ := gathers_docLines trimmed (2 * k) newlines
  rw [documentedText_eq] at begins
  rw [← reported]
  refine next_of_gathers ?_ found
  rw [config]
  exact begins.trans ((gathered _).trans (gathers_indent _ _))

/-- The documentation that can be reported is the texts no line of which ends in a blank. -/
theorem Lexer.exists_documents_iff_isTrimmed {doc : String} :
    (∃ (l : Lexer) (t : Located), l.next.1 = .ok t ∧ t.doc = some doc) ↔ IsTrimmed doc := by
  constructor
  · rintro ⟨l, t, reported, documents⟩
    exact isTrimmed_of_next reported documents
  · intro trimmed
    by_cases empty : doc = ""
    · -- Nothing is written of an empty text, but a comment without text is reported as one.
      subst empty
      exact ⟨.ofText {} ['/', '/'], ⟨.eof, ⟨1, 3, 2⟩, some ""⟩, by decide +kernel, rfl⟩
    · -- Otherwise it is written in front of the end mark.
      have next := @next_documented (.ofText {} _) doc "" 0 0 .eof trimmed rfl .done rfl
      rw [if_neg empty] at next
      exact ⟨_, _, congrArg Prod.fst next, rfl⟩

/-! ### Lines of a text -/

/-- Texts behind which a line begins, and the tokens that are read from them: nothing at all, or a
text of which one line feed among blanks is left behind the tokens. -/
inductive BeginsLine : List Char → List Located → Prop
  | start : BeginsLine [] []
  | behind {front gap gap' : List Char} {used : List Located} {l : Lexer} :
      (Lexer.ofText {} front).Gives used l → l.rest = gap ++ '\n' :: gap' →
      (∀ c ∈ gap ++ gap', Filler.isSpace c = true) → BeginsLine front used

/-- The tokens of such a text are given whatever stands on the line; then the lexer comes to it. -/
theorem BeginsLine.exists_gives {front : List Char} {used : List Located}
    (h : BeginsLine front used) (text : List Char) :
    ∃ l : Lexer, (Lexer.ofText {} (front ++ text)).Gives used l ∧ l.config = {} ∧
      ∃ newlines, Gathers {} (.start l.onTokenLine) l.rest ⟨false, newlines, []⟩ text := by
  cases h with
  | start => exact ⟨_, .done, rfl, 0, .done⟩
  | @behind _ gap gap' _ l gives left spaces =>
    obtain ⟨spaces, spaces'⟩ := List.forall_mem_append.mp spaces
    have nonempty : l.rest ≠ [] := by simp [left]
    obtain ⟨front', whole, -⟩ := gives.exists_front
    have whole : front = front' ++ l.rest := whole
    -- The line feed is left of `front`, so no token of it can run on into what is put behind.
    have replaces : CanReplace l.rest (l.rest ++ text) := by
      obtain ⟨c, rest, same⟩ := List.exists_cons_of_ne_nil nonempty
      rw [same]
      exact .of_head? rfl
    have replaced := gives.replaced (gives.ne_eof nonempty) whole replaces
    rw [← List.append_assoc, ← whole] at replaced
    refine ⟨_, replaced, gives.config, 1, ?_⟩
    have line : l.rest ++ text = gap ++ '\n' :: (gap' ++ text) := by simp [left]
    rw [line]
    exact (gathers_spaces spaces _).trans ((gathers_newline _).trans (gathers_spaces spaces' _))

/-- Documentation is read back. No line of what a lexer reports, whatever its text and configuration
are, ends in a blank; and written as line comments above a token it is reported for that token again,
however far both stand in and whatever is read in front of their lines. Only of an empty one nothing
is written, so that there is none. -/
theorem Lexer.gives_written_documentation {l : Lexer} {t : Located} {doc : String}
    (reported : l.next.1 = .ok t) (documents : t.doc = some doc)
    {front : List Char} {used : List Located} (begins : BeginsLine front used) (k : Nat)
    {line : String} {token : Token} (found : (Token.scan line.toList).outcome = .ok token) :
    IsTrimmed doc ∧ ∃ position after,
      (ofText {} (front ++ documentedText doc line k)).Gives
        (used ++ [⟨token, position, if doc = "" then none else some doc⟩]) after := by
  have trimmed := isTrimmed_of_next reported documents
  obtain ⟨mid, gives, config, newlines, gathered⟩ :=
    begins.exists_gives (documentedText doc line k)
  have next := next_documented trimmed config gathered found
  exact ⟨trimmed, _, _, gives.snoc next⟩

/-- A block comment with empty lines and a carriage return in it, and two line comments. -/
def starredText : List Char :=
  "a\n/**\r\n * /first\r\n *\r\n *   a\rb\u00a0\r\n\n **/ //// /second \u3000\n\n  //\n b".toList

/-- A line that begins with a slash, an empty one, one that begins with blanks, and an empty one at
the end. -/
def starredDoc : String := "/first\n\n  a\rb\n/second\n"

/-- The documentation of a token stays what it was when it is moved into a message. -/
theorem Lexer.starredText_documentation :
    (∃ p, (ofText { blankLineDetaches := false } starredText).next.2.next.1 =
      .ok ⟨.ident "b", p, some starredDoc⟩) ∧
    ∃ used position after, BeginsLine "message M \x7b \n\t".toList used ∧
      (ofText {} ("message M \x7b \n\t".toList ++
        documentedText starredDoc "optional int32 x = 1;" 2)).Gives
        (used ++ [⟨.ident "optional", position, some starredDoc⟩]) after := by
  have reported : (ofText { blankLineDetaches := false } starredText).next.2.next.1 =
      .ok ⟨.ident "b", ⟨10, 2, 64⟩, some starredDoc⟩ := by
    decide +kernel
  have message : (ofText {} "message M \x7b \n\t".toList).next =
      (.ok ⟨.ident "message", ⟨1, 1, 0⟩, none⟩, ⟨{}, " M \x7b \n\t".toList, ⟨1, 8, 7⟩, true⟩) := by
    decide +kernel
  have name : (⟨{}, " M \x7b \n\t".toList, ⟨1, 8, 7⟩, true⟩ : Lexer).next =
      (.ok ⟨.ident "M", ⟨1, 9, 8⟩, none⟩, ⟨{}, " \x7b \n\t".toList, ⟨1, 10, 9⟩, true⟩) := by
    decide +kernel
  have brace : (⟨{}, " \x7b \n\t".toList, ⟨1, 10, 9⟩, true⟩ : Lexer).next =
      (.ok ⟨.mark .openBrace, ⟨1, 11, 10⟩, none⟩, ⟨{}, " \n\t".toList, ⟨1, 12, 11⟩, true⟩) := by
    decide +kernel
  have spaces : ∀ c ∈ [' '] ++ ['\t'], Filler.isSpace c = true := by simp [Filler.isSpace]
  have begins := @BeginsLine.behind _ [' '] ['\t'] _ _
    (.call message (.call name (.call brace .done))) rfl spaces
  have found : (Token.scan "optional int32 x = 1;".toList).outcome = .ok (.ident "optional") := by
    decide +kernel
  obtain ⟨-, position, after, gives⟩ := gives_written_documentation reported rfl begins 2 found
  exact ⟨⟨_, reported⟩, _, position, after, begins, gives⟩

end ProtoSchema
