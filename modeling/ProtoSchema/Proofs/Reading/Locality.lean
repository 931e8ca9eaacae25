import ProtoSchema.Proofs.Lexing.Cut
import ProtoSchema.Proofs.Reading.Blame
import ProtoSchema.Proofs.Reading.Parse
import ProtoSchema.Proofs.Reading.Viability

/-!
# Failures are found where they are

A text that fails at a token where the grammar has another one is sound up to there: something can
be written in the place of that token and of what follows, so that a file is read or only a rule is
broken.
-/

namespace ProtoSchema

open Reader Documentation

/-! ### Writing completions -/

namespace Reader.Stopgap

/-- How a stopgap is written. -/
def text : Stopgap → List Char
  | mark m => [m.char]
  | keyword k => k.spelling.toList
  | name => ['x']
  | number => ['1']
  | literal bytes => Quoted.bytes bytes

theorem isSpelling_text (g : Stopgap) : IsSpelling g.text g.token := by
  cases g with
  | mark m => exact (isFirmSpelling_mark m).isSpelling
  | keyword k =>
    have name : IsIdent k.spelling := .inl (by cases k <;> decide)
    exact name.isSpelling
  | name => exact isSpelling_name rfl
  | number => exact isSpelling_int (by decide)
  | literal bytes => exact (isFirmSpelling_bytes bytes).isSpelling

/-- Stopgaps in a row, with blanks in front of them. -/
def written (completion : List Stopgap) : List Char :=
  completion.flatMap fun g => ' ' :: g.text

theorem isApart_written (completion : List Stopgap) : IsApart (written completion) := by
  cases completion with
  | nil => exact isApart_nil
  | cons g completion => exact isApart_cons.mpr rfl

theorem spells_written (completion : List Stopgap) :
    Spells (written completion) (completion.map fun g => some g.token) := by
  induction completion with
  | nil => exact .nil
  | cons g completion ih =>
    exact (ih.word g.isSpelling_text (isApart_written completion)).space

end Reader.Stopgap

open Reader.Stopgap

/-- From what is written the tokens are read, and nothing else. -/
theorem exists_tokens_of_written (config : DocConfig) (completion : List Stopgap) :
    ∃ mark, (TokenStream.ofText config ('\n' :: written completion)).ending = .finished mark ∧
      (TokenStream.ofText config ('\n' :: written completion)).tokens.map Located.token =
        completion.map Stopgap.token := by
  have read := Lexer.words?_run (Lexer.ofText config ('\n' :: written completion))
  have newline : Filler.first? ('\n' :: written completion) = some (.newline, written completion) :=
    rfl
  have spelled := spells_written completion config
    ((Gathering.start false).step config .newline) [] isApart_nil
  rw [List.append_nil] at spelled
  obtain ⟨words, found, same⟩ := exists_words_of_tokens config
    ((Gathering.start false).step config .newline) (completion.map Stopgap.token)
  rw [List.map_map] at found
  change _ = wordsFrom config (.start false) ('\n' :: written completion) at read
  rw [wordsFrom_filler newline, spelled] at read
  obtain ⟨mark, ending, tokens⟩ := TokenStream.finished_of_words? (read.trans found)
  exact ⟨mark, ending, tokens.trans same⟩

/-! ### Where failures are -/

/-- A failure that finds a token finds one of the stream. -/
private def TokenStream.Blames (s : TokenStream) (failure : ReadError) : Prop :=
  ∀ e, failure = .unexpected e → ∃ t, s.Shows t ∧ e.position = t.position

private theorem TokenStream.allows_blames (s : TokenStream) : s.Allows s.Blames where
  lexical _ := by
    rintro _ ⟨⟩
  unexpected shown _ := by
    rintro _ ⟨⟩
    exact ⟨_, shown, rfl⟩
  literal shown _ := by
    rintro _ ⟨⟩
    exact ⟨_, shown, rfl⟩
  violation _ := by
    rintro _ ⟨⟩

private theorem TokenStream.allowsNesting_blames (s : TokenStream) : s.AllowsNesting s.Blames := by
  rintro t limit shown _ ⟨⟩
  exact ⟨t, shown, rfl⟩

private theorem exists_same_of_fails {c : Comparison} {e' : ReadError} {e : Unexpected}
    (h : c.Fails e' (.unexpected e)) : ∃ t t', c.Same t t' ∧ e.position = t'.position := by
  generalize same : ReadError.unexpected e = failure at h
  cases h with
  | unexpected token =>
    cases same
    exact ⟨_, _, token, rfl⟩
  | _ => cases same

/-- A token is refused where it stands. -/
theorem exists_token_of_unexpected {budget : Nat} {name : String} {s : TokenStream}
    {e : Unexpected} (h : ((Reading.file budget name).run s.ending).run s.tokens =
      .error (.unexpected e)) :
    ∃ read left t, s.tokens = read ++ left ∧ front? s.ending left = some t ∧
      e.position = t.position := by
  have outcome := Reading.confined_file s.allows_blames s.allowsNesting_blames budget name s.tokens
    (List.suffix_refl _)
  rw [h] at outcome
  cases outcome with
  | error blamed =>
    obtain ⟨t, ⟨left, ⟨read, split⟩, next⟩, position⟩ := blamed e rfl
    exact ⟨read, left, t, split.symm, next, position⟩

/-- Up to a token that is refused nothing is wrong: if the stream is cut off there, the reader
misses a token. -/
theorem pending_of_unexpected {budget : Nat} {name : String} {ending : Ending}
    {read left : List Located} {e : Unexpected}
    (h : ((Reading.file budget name).run ending).run (read ++ left) = .error (.unexpected e))
    (before : ∀ t ∈ read, t.position ≠ e.position) :
    Pending read (Reading.file budget name) read where
  subset := List.Subset.refl _
  misses := by
    have related : (cutSimulation (· ∈ read) ending left).Related read (read ++ left) :=
      related_cutSimulation_iff.mpr ⟨rfl, fun _ member => member⟩
    have outcome := Simulation.mirrors_file budget name _ _ related
    change (cutSimulation (· ∈ read) ending left).Outcome _
      (((Reading.file budget name).run (.failed cutOff)).run read)
      (((Reading.file budget name).run ending).run (read ++ left)) at outcome
    rw [h] at outcome
    generalize ((Reading.file budget name).run (.failed cutOff)).run read = o at outcome ⊢
    cases outcome with
    -- It would be refused at a token that was read, and the refused one is none of these.
    | error fails =>
      obtain ⟨t, t', same, position⟩ := exists_same_of_fails fails
      obtain ⟨rfl, member⟩ := same.linked
      exact absurd position.symm (before _ member)
    | cut _ _ same =>
      cases same
      rfl
  hope := by
    refine ⟨ending, left, fun hopeless => ?_⟩
    rw [h] at hopeless
    cases hopeless with
    | unexpected _ _ member => exact absurd rfl (before _ member)

/-! ### Completed texts -/

private theorem ofStream_of_settles {α : Type} {reader : Reader α} {stream : TokenStream}
    {rest : List Located} (h : Settles reader stream.ending stream.tokens rest) :
    (∃ v, reader.ofStream stream = .ok v) ∨
      ∃ broken position, reader.ofStream stream = .error (.violation broken position) := by
  rcases h with ⟨v, reads⟩ | ⟨broken, position, failed⟩
  · exact .inl ⟨v, ofStream_eq_ok_iff.mpr ⟨rest, reads⟩⟩
  · exact .inr ⟨broken, position, ofStream_eq_error_iff.mpr failed⟩

/-- If a text is cut off and a completion is written there, what was read is read again, and then
the completion and the end of the text. -/
theorem Lexer.CutsAt.exists_stream {config : DocConfig} {text front : List Char}
    {read : List Located} {place : Position}
    (cuts : (Lexer.ofText config text).CutsAt read place front) (completion : List Stopgap) :
    ∃ cs ending, TokenStream.ofText config (front ++ '\n' :: written completion) =
        ⟨read ++ cs, ending⟩ ∧ cs.map Located.token = completion.map Stopgap.token ∧
      ending.IsProper ∧ Sees (· = .eof) ending [] := by
  obtain ⟨l, same, run⟩ := cuts.again ('\n' :: written completion) rfl
  obtain ⟨mark, finished, tokens⟩ := exists_tokens_of_written config completion
  -- The lexer behind the cut finds what a lexer at the beginning of the completion finds.
  obtain ⟨alike, ending⟩ := Lexer.matches_run_of_scan_eq
    (l := Lexer.ofText config ('\n' :: written completion)) same
  have proper := (Lexer.run_isProper l).1
  refine ⟨l.run.tokens, l.run.ending, run, ?_, proper, ?_⟩
  · exact (Simulation.alike_map (alike.imp fun _ _ same => same.token)).trans tokens
  · change (Lexer.ofText config ('\n' :: written completion)).run.ending = _ at finished
    rw [finished] at ending
    generalize l.run.ending = ending' at ending proper
    cases ending with
    | finished _ => exact ⟨_, rfl, proper⟩

/-- Where a token is refused, what stands in front of it can be completed to a text of which a file
is read or in which only a rule is broken. -/
theorem exists_completion_of_unexpected {config : DocConfig} {name : String} {text : List Char}
    {e : Unexpected} (h : parse config name text = .error (.unexpected e)) :
    ∃ front back, text = front ++ back ∧ (Utf8.encode front).length = e.position.offset ∧
      ∃ more, (∃ f, parse config name (front ++ more) = .ok f) ∨
        ∃ broken position,
          parse config name (front ++ more) = .error (.violation broken position) := by
  have failed := ofStream_eq_error_iff.mp h
  obtain ⟨read, left, t, split, next, position⟩ := exists_token_of_unexpected failed
  obtain ⟨front, back, whole, cuts⟩ := Lexer.exists_cutsAt split next
  rw [split] at failed
  -- Places grow along a text, so no token in front of the refused one is at its place.
  have pending := pending_of_unexpected failed fun t' member same =>
    absurd (cuts.before t' member) (by rw [same, position]; exact Nat.lt_irrefl _)
  obtain ⟨completion, completes⟩ :=
    (Reading.completable_file Reading.nestingLimit name).viable_anywhere read read pending
  obtain ⟨cs, ending, stream, tokens, proper, sees⟩ := cuts.exists_stream completion
  refine ⟨front, back, whole, ?_, '\n' :: written completion, ?_⟩
  · rw [position, cuts.place_eq, Position.offset_advance]
    exact (Nat.zero_add _).symm
  · have settles := completes cs ending [] tokens proper sees
    rw [List.append_nil] at settles
    unfold parse
    rw [stream]
    exact ofStream_of_settles settles

/-- A field without its semicolon, deep inside. -/
def unfinishedText : List Char :=
  "message A \x7b message B \x7b optional string s = 1 \x7d \x7d".toList

theorem unfinishedText_completion :
    parse ⟨true, true⟩ "a.proto" unfinishedText =
        .error (.unexpected ⟨⟨1, 47, 46⟩, .mark .semicolon, .mark .closeBrace⟩) ∧
      ∃ front back, unfinishedText = front ++ back ∧ (Utf8.encode front).length = 46 ∧
        ∃ more, (∃ f, parse ⟨true, true⟩ "a.proto" (front ++ more) = .ok f) ∨
          ∃ broken position, parse ⟨true, true⟩ "a.proto" (front ++ more) =
            .error (.violation broken position) := by
  have refused : parse ⟨true, true⟩ "a.proto" unfinishedText =
      .error (.unexpected ⟨⟨1, 47, 46⟩, .mark .semicolon, .mark .closeBrace⟩) := by
    decide +kernel
  exact ⟨refused, exists_completion_of_unexpected refused⟩

end ProtoSchema
