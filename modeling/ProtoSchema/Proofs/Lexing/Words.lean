import ProtoSchema.Proofs.Grammar.Phrase

/-!
# The words of a text, step by step

`wordsFrom` reads the words of a text one filler or one token at a time; all that it keeps is what
has been gathered of the documentation. A lexer gives the same words, wherever it stands.
-/

namespace ProtoSchema

open Documentation

/-- A token other than the end takes at least one character. -/
theorem Token.length_rest_scan_lt {text : List Char} {t : Token}
    (found : (scan text).outcome = .ok t) (more : t ≠ .eof) :
    (scan text).rest.length < text.length := by
  cases text with
  | nil =>
    cases found
    exact absurd rfl more
  | cons c rest =>
    have tiles := congrArg List.length (text_scan (c :: rest))
    have := List.length_pos_iff.mpr (taken_scan_ne_nil found)
    rw [Scan.text, List.length_append] at tiles
    omega

/-- The documentation gathered so far. -/
def Documentation.Gathering.doc (g : Gathering) : String := g.doc?.getD ""

/-- The words of a text that stands behind what was gathered, if it is without lexical faults. -/
def wordsFrom (config : DocConfig) (g : Gathering) (text : List Char) : Option (List Word) :=
  match _h : Filler.first? text with
  | some (f, rest) => wordsFrom config (g.step config f) rest
  | none =>
    if Lexer.opensComment text then none
    else
      match _found : (Token.scan text).outcome with
      | .error _ => none
      | .ok t =>
        if _more : t = .eof then some []
        else
          (wordsFrom config (.start true) (Token.scan text).rest).map (⟨t, g.doc⟩ :: ·)
termination_by text.length
decreasing_by
  · exact Filler.length_first?_lt _h
  · exact Token.length_rest_scan_lt _found _more

variable {config : DocConfig} {g : Gathering} {text rest : List Char}

theorem wordsFrom_filler {f : Filler} (h : Filler.first? text = some (f, rest)) :
    wordsFrom config g text = wordsFrom config (g.step config f) rest := by
  rw [wordsFrom]
  split
  next f' rest' h' =>
    cases h.symm.trans h'
    rfl
  next h' => cases h.symm.trans h'

/-- Fillers are read one after the other. -/
theorem wordsFrom_scan (text : List Char) (g : Gathering) :
    wordsFrom config g text =
      wordsFrom config ((Filler.scan text).1.foldl (Gathering.step config) g)
        (Filler.scan text).2 := by
  fun_induction Filler.scan text generalizing g with
  | case1 => rfl
  | case2 text f rest first fillers after same ih =>
    rw [wordsFrom_filler first, ih, same]
    rfl

theorem wordsFrom_token {t : Token} (noFiller : Filler.first? text = none)
    (noComment : Lexer.opensComment text = false) (more : t ≠ .eof)
    (found : (Token.scan text).outcome = .ok t) :
    wordsFrom config g text =
      (wordsFrom config (.start true) (Token.scan text).rest).map (⟨t, g.doc⟩ :: ·) := by
  rw [wordsFrom]
  split
  next h => cases noFiller.symm.trans h
  next =>
    rw [if_neg (by simp [noComment])]
    split
    next h => cases found.symm.trans h
    next h =>
      cases found.symm.trans h
      rw [dif_neg more]

theorem wordsFrom_fault {fault : Fault} (noFiller : Filler.first? text = none)
    (failed : (Token.scan text).outcome = .error fault) : wordsFrom config g text = none := by
  rw [wordsFrom]
  split
  next h => cases noFiller.symm.trans h
  next =>
    split
    next => rfl
    next =>
      split
      next => rfl
      next h => cases failed.symm.trans h

theorem wordsFrom_comment (noFiller : Filler.first? text = none)
    (comment : Lexer.opensComment text = true) : wordsFrom config g text = none := by
  rw [wordsFrom]
  split
  next h => cases noFiller.symm.trans h
  next => rw [if_pos comment]

theorem wordsFrom_eof (noFiller : Filler.first? text = none)
    (noComment : Lexer.opensComment text = false)
    (found : (Token.scan text).outcome = .ok .eof) : wordsFrom config g text = some [] := by
  rw [wordsFrom]
  split
  next h => cases noFiller.symm.trans h
  next =>
    rw [if_neg (by simp [noComment])]
    split
    next h => cases found.symm.trans h
    next h =>
      cases found.symm.trans h
      rfl

@[simp] theorem wordsFrom_nil : wordsFrom config g [] = some [] :=
  wordsFrom_eof rfl rfl rfl

/-- Where there are words, the text ends behind them. -/
theorem TokenStream.finished_of_words? {s : TokenStream} {words : List Word}
    (h : s.words? = some words) :
    ∃ mark, s.ending = .finished mark ∧ s.tokens.map Located.token = words.map Word.token := by
  unfold words? at h
  split at h
  next mark ending =>
    cases h
    refine ⟨mark, ending, ?_⟩
    rw [List.map_map]
    rfl
  next => cases h

private theorem words?_cons (t : Located) (s : TokenStream) :
    TokenStream.words? ⟨t :: s.tokens, s.ending⟩ = s.words?.map (t.word :: ·) := by
  unfold TokenStream.words?
  split <;> simp_all

/-- What a lexer has read where it gives a token. -/
private theorem Lexer.of_next_eq_ok {l after : Lexer} {t : Located} (next : l.next = (.ok t, after)) :
    opensComment (Filler.scan l.rest).2 = false ∧
      (Token.scan (Filler.scan l.rest).2).outcome = .ok t.token ∧
      t.doc = (gather l.config l.onTokenLine (Filler.scan l.rest).1).doc? ∧
      after.config = l.config ∧ after.rest = (Token.scan (Filler.scan l.rest).2).rest ∧
      after.onTokenLine = true := by
  unfold Lexer.next at next
  simp only at next
  split at next
  next => cases next
  next noComment =>
    split at next
    next found =>
      cases next
      exact ⟨by simpa using noComment, found, rfl, rfl, rfl, rfl⟩
    next => cases next

/-- Where a lexer gives no token there are no words. -/
private theorem Lexer.wordsFrom_of_next_eq_error {l after : Lexer} {e : LexicalError}
    (next : l.next = (.error e, after)) (g : Gathering) :
    wordsFrom l.config g (Filler.scan l.rest).2 = none := by
  have noFiller := Filler.first?_scan l.rest
  unfold Lexer.next at next
  simp only at next
  split at next
  next comment => exact wordsFrom_comment noFiller comment
  next =>
    split at next
    next => cases next
    next failed => exact wordsFrom_fault noFiller failed

/-- A lexer gives the words that can be read one step after the other. -/
theorem Lexer.words?_run (l : Lexer) :
    l.run.words? = wordsFrom l.config (.start l.onTokenLine) l.rest := by
  fun_induction Lexer.run l with
  | case1 l error after next =>
    rw [wordsFrom_scan, wordsFrom_of_next_eq_error next]
    rfl
  | case2 l t after next atEnd =>
    obtain ⟨noComment, found, _⟩ := of_next_eq_ok next
    rw [wordsFrom_scan, wordsFrom_eof (Filler.first?_scan l.rest) noComment (atEnd ▸ found)]
    rfl
  | case3 l t after next more stream ih =>
    obtain ⟨noComment, found, doc, config, rest, onTokenLine⟩ := of_next_eq_ok next
    rw [wordsFrom_scan, wordsFrom_token (Filler.first?_scan l.rest) noComment more found, words?_cons,
      ih, config, rest, onTokenLine, Located.word, Reader.docOf, doc]
    rfl

end ProtoSchema
