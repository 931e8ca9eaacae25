import ProtoSchema.Proofs.Lexing.Documentation
import ProtoSchema.Proofs.Reading.Blame
import ProtoSchema.Proofs.Reading.Parse

/-!
# What a parser sees of a text

A parser looks at the tokens of a text through a cursor, which asks the lexer for a token when it is
needed and keeps it until it is taken. `Cursor.ask_eq` says for one look that the cursor shows what
the stream of all tokens shows, and by induction it does so however looks follow each other: no token
is lost, shown twice or shown before the ones in front of it. What the parser says about a text is
thus about its stream: `parse_sees_stream` says where in the stream each outcome has its place.
-/

namespace ProtoSchema

open Reader Reading

/-! ### Cursors -/

/-- A lexer and the token that was looked at but not taken yet. -/
structure Cursor where
  lexer : Lexer
  peeked : Option Located

/-- The two ways to look at the next token. -/
inductive Look where
  | peek
  | next
  deriving DecidableEq

/-- The reader that looks in a certain way. -/
def Look.reader : Look → Reader Located
  | peek => Reader.peek
  | next => Reader.next

/-- What a look at some state shows, one look after the other. A fault is the last thing that is
shown, and so is the end of the text when it is taken. -/
def answers {σ : Type} (ask : Look → σ → Except ReadError (Located × σ)) :
    List Look → σ → List (Except ReadError Located)
  | [], _ => []
  | look :: looks, state =>
    match ask look state with
    | .error e => [.error e]
    | .ok (t, after) =>
      if look = .next ∧ t.token = .eof then [.ok t] else .ok t :: answers ask looks after

namespace Cursor

/-- A cursor on a text of which nothing has been read. -/
def ofText (config : DocConfig) (text : List Char) : Cursor :=
  ⟨Lexer.ofText config text, none⟩

/-- The token that was kept, or else the next one of the lexer. -/
def ask (look : Look) (c : Cursor) : Except ReadError (Located × Cursor) :=
  match c.peeked with
  | some t => .ok (t, ⟨c.lexer, if look = .peek then some t else none⟩)
  | none =>
    match c.lexer.next with
    | (.ok t, after) => .ok (t, ⟨after, if look = .peek then some t else none⟩)
    | (.error e, _) => .error (.lexical e)

/-- The tokens that a cursor has still to show. -/
def stream (c : Cursor) : TokenStream :=
  match c.peeked with
  | none => c.lexer.run
  | some t =>
    if t.token = .eof then ⟨[], .finished t⟩ else ⟨t :: c.lexer.run.tokens, c.lexer.run.ending⟩

end Cursor

/-- What a look at a stream shows, and what is left of the stream. -/
def TokenStream.ask (look : Look) (s : TokenStream) : Except ReadError (Located × TokenStream) :=
  ((look.reader.run s.ending).run s.tokens).map fun shown => (shown.1, ⟨shown.2, s.ending⟩)

namespace Cursor

variable {look : Look} {l after : Lexer} {t : Located}

/-- A lexer that goes on with a token shows what a cursor shows that keeps this token. -/
theorem stream_of_next (h : l.next = (.ok t, after)) : stream ⟨l, none⟩ = stream ⟨after, some t⟩ := by
  change l.run = _
  rw [Lexer.run]
  split
  next other => cases h.symm.trans other
  next other =>
    cases h.symm.trans other
    rfl

theorem ask_of_next (h : l.next = (.ok t, after)) : ask look ⟨l, none⟩ = ask look ⟨after, some t⟩ := by
  simp only [ask, h]

theorem stream_of_fault {e : LexicalError} (h : l.next = (.error e, after)) :
    stream ⟨l, none⟩ = ⟨[], .failed e⟩ := by
  change l.run = _
  rw [Lexer.run]
  split
  next other => cases h.symm.trans other; rfl
  next other => cases h.symm.trans other

private theorem ask_peeked (look : Look) (l : Lexer) (t : Located) :
    (stream ⟨l, some t⟩).ask look = .ok (t,
      if look = .next ∧ t.token = .eof then stream ⟨l, some t⟩
      else stream ⟨l, if look = .peek then some t else none⟩) := by
  by_cases atEnd : t.token = .eof
  · cases look <;> simp [stream, atEnd] <;> rfl
  · cases look <;> simp [stream, atEnd] <;> rfl

/-- A look at a cursor shows what a look at its stream does, and leaves the cursor with what is left
of the stream. Only behind the end there is nothing left to compare. -/
theorem ask_eq (look : Look) (c : Cursor) :
    c.stream.ask look = (c.ask look).map fun (t, after) =>
      (t, if look = .next ∧ t.token = .eof then c.stream else after.stream) := by
  obtain ⟨l, peeked⟩ := c
  cases peeked with
  | some t => exact ask_peeked look l t
  | none =>
    -- The next token of the lexer may as well have been kept.
    generalize h : l.next = step
    obtain ⟨o, after⟩ := step
    cases o with
    | ok t =>
      rw [stream_of_next h, ask_of_next h]
      exact ask_peeked look after t
    | error e =>
      rw [stream_of_fault h]
      cases look <;> simp [ask, h] <;> rfl

/-- However looks follow each other, a cursor shows what its stream does. -/
theorem answers_eq (looks : List Look) (c : Cursor) :
    answers ask looks c = answers TokenStream.ask looks c.stream := by
  induction looks generalizing c with
  | nil => rfl
  | cons look looks ih =>
    have step := ask_eq look c
    rw [answers, answers]
    generalize c.ask look = o at step ⊢
    rw [step]
    cases o with
    | error e => rfl
    | ok shown =>
      obtain ⟨t, after⟩ := shown
      by_cases last : look = .next ∧ t.token = .eof
      · simp [Except.map, last]
      · simp [Except.map, last, ih]

end Cursor

/-! ### Outcomes in a stream -/

namespace TokenStream

variable {s : TokenStream}

theorem Shows.mem_yielded {t : Located} (shown : s.Shows t) : t ∈ s.yielded := by
  obtain ⟨left, stands, front⟩ := shown
  unfold yielded
  cases left with
  | cons first left =>
    cases front
    have member := stands.subset List.mem_cons_self
    split
    · exact List.mem_append_left _ member
    · exact member
  | nil =>
    -- With no tokens left it is the end mark, and there is one.
    split
    next endMark ending =>
      rw [ending] at front
      cases front
      exact List.mem_append_right _ List.mem_cons_self
    next ending =>
      rw [ending] at front
      cases front

/-- The end mark is no keyword. -/
theorem Shows.mem_tokens {t : Located} {k : Keyword} (proper : s.ending.IsProper)
    (shown : s.Shows t) (word : t.token.keyword? = some k) : t ∈ s.tokens := by
  obtain ⟨left, stands, front⟩ := shown
  cases left with
  | cons first left =>
    cases front
    exact stands.subset List.mem_cons_self
  | nil =>
    rw [eof_of_front?_nil proper front] at word
    cases word

/-- What was found at a token: the token, or the literal that it begins and that is no text. -/
def Finds (s : TokenStream) (t : Located) (e : Unexpected) : Prop :=
  match e.expected with
  | .textLiteral _ => ∃ bytes, e.found = .str bytes ∧ s.HasBadText t bytes
  | _ => e.found = t.token

/-- What a failure says about the tokens: it is the fault that they end with, or it is about one of
them. -/
def Explains (s : TokenStream) : ReadError → Prop
  | .lexical e => s.ending = .failed e
  | .unexpected e => ∃ t ∈ s.yielded, e.position = t.position ∧ s.Finds t e
  | .violation _ position => ∃ t ∈ s.yielded, position = t.position

private theorem finds_of_isSingle {t : Located} {expected : Expectation}
    (single : expected.isSingle = true) : s.Finds t ⟨t.position, expected, t.token⟩ := by
  cases expected <;> first | rfl | cases single

theorem allows_explains (proper : s.ending.IsProper) : s.Allows s.Explains where
  lexical ending := ending
  unexpected shown single := ⟨_, shown.mem_yielded, rfl, finds_of_isSingle single⟩
  literal shown bad := ⟨_, shown.mem_yielded, rfl, _, rfl, bad proper⟩
  violation shown := ⟨_, shown.mem_yielded, rfl⟩

theorem allowsNesting_explains (s : TokenStream) : s.AllowsNesting s.Explains :=
  fun _ _ shown => ⟨_, shown.mem_yielded, rfl, rfl⟩

/-- A text with words has its end and no fault. -/
theorem exists_endMark_of_words {words : List Word} (h : s.words? = some words)
    (proper : s.ending.IsProper) : ∃ endMark, s.ending = .finished endMark ∧ endMark.token = .eof := by
  unfold words? at h
  split at h
  next endMark ending =>
    rw [ending] at proper
    exact ⟨endMark, ending, proper⟩
  next => cases h

end TokenStream

variable {config : DocConfig} {name : String} {text : List Char}

theorem explains_of_parse {e : ReadError} (failed : parse config name text = .error e) :
    (TokenStream.ofText config text).Explains e := by
  have proper := TokenStream.ofText_isProper config text
  have outcome := confined_file (TokenStream.allows_explains proper)
    (TokenStream.allowsNesting_explains _) nestingLimit name _ (List.suffix_refl _)
  rw [ofStream_eq_error_iff.mp failed] at outcome
  cases outcome with
  | error explained => exact explained

/-- A file that is read but refused as a whole is refused at the keyword of the last declaration of
some name. -/
theorem exists_clash_of_reads {stream : TokenStream} {budget : Nat} {t : FileText}
    {rest : List Located} {broken : Violation} (proper : stream.ending.IsProper)
    (reads : Reads (fileText budget) stream.ending stream.tokens t rest)
    (refused : SchemaFile.make name t.body = .error broken) :
    ∃ scopeName declared, broken = .duplicateName scopeName declared.1 ∧
      (t.statements.filterMap FileStatement.declared?).reverse.find? (·.1 = declared.1) =
        some declared ∧
      (file budget name).ofStream stream = .error (.violation broken declared.2) ∧
      ∃ u ∈ stream.tokens, ∃ k, u.token.keyword? = some k ∧ k.declares = true ∧
        declared.2 = u.position := by
  obtain ⟨scopeName, declared, clash, last, place⟩ := FileText.exists_clash_of_make refused
  have outcome := confined_fileText (TokenStream.allows_explains proper)
    (TokenStream.allowsNesting_explains _) budget _ (List.suffix_refl _)
  rw [show ((fileText budget).run stream.ending).run stream.tokens = _ from reads] at outcome
  refine ⟨scopeName, declared, clash, last, ?_, ?_⟩
  · rw [ofStream_eq_error_iff, file, run_bind,
      show ((fileText budget).run stream.ending).run stream.tokens = _ from reads]
    simp only [refused, place]
    rfl
  · cases outcome with
    | ok placed _ =>
      obtain ⟨u, k, shown, word, declares, same⟩ := FileText.exists_token_of_find? placed last
      exact ⟨u, shown.mem_tokens proper word, k, word, declares, same⟩

/-- A parser sees exactly the tokens of a text: its cursor shows them in order, whatever the looks at
them are. If it reads a file there is no fault in the text. If it fails it does so with the fault that
the tokens end with, or at one of the tokens in front of it, which is what it found unless that begins
a literal that is no text. A file that is refused as a whole for a name is refused at the keyword of
the last declaration of this name, never at a place that stands for none. -/
theorem parse_sees_stream (config : DocConfig) (name : String) (text : List Char) :
    (∀ looks, answers Cursor.ask looks (Cursor.ofText config text) =
      answers TokenStream.ask looks (TokenStream.ofText config text)) ∧
    (∀ f, parse config name text = .ok f →
      ∃ endMark, (TokenStream.ofText config text).ending = .finished endMark ∧
        endMark.token = .eof) ∧
    (∀ e, parse config name text = .error e → (TokenStream.ofText config text).Explains e) ∧
    ∀ t rest broken,
      Reads (fileText nestingLimit) (TokenStream.ofText config text).ending
        (TokenStream.ofText config text).tokens t rest →
      SchemaFile.make name t.body = .error broken →
      ∃ scopeName declared, broken = .duplicateName scopeName declared.1 ∧
        (t.statements.filterMap FileStatement.declared?).reverse.find? (·.1 = declared.1) =
          some declared ∧
        parse config name text = .error (.violation broken declared.2) ∧
        ∃ u ∈ (TokenStream.ofText config text).tokens, ∃ k, u.token.keyword? = some k ∧
          k.declares = true ∧ declared.2 = u.position := by
  have proper := TokenStream.ofText_isProper config text
  refine ⟨fun looks => Cursor.answers_eq looks _, ?_, fun e => explains_of_parse, ?_⟩
  · intro f parsed
    obtain ⟨_, _, words, _⟩ :=
      (ofStream_file_iff proper fun _ => TokenStream.ne_eof_of_mem_ofText).mp parsed
    exact TokenStream.exists_endMark_of_words words proper
  · intro t rest broken reads refused
    exact exists_clash_of_reads proper reads refused

/-- An import of a path that is no text, in two parts with a comment between them. -/
def brokenImportText : List Char :=
  "import 'a' /* and */ \"\\xff\";".toList

theorem brokenImportText_finds :
    parse {} "import.proto" brokenImportText =
        .error (.unexpected ⟨⟨1, 8, 7⟩, .textLiteral .importPath, .str [97, 255]⟩) ∧
      ∃ t ∈ (TokenStream.ofText {} brokenImportText).yielded, ⟨1, 8, 7⟩ = t.position ∧
        ∃ bytes, Token.str [97, 255] = .str bytes ∧
          (TokenStream.ofText {} brokenImportText).HasBadText t bytes := by
  have failed : parse {} "import.proto" brokenImportText =
      .error (.unexpected ⟨⟨1, 8, 7⟩, .textLiteral .importPath, .str [97, 255]⟩) := by
    decide +kernel
  exact ⟨failed, (parse_sees_stream {} "import.proto" brokenImportText).2.2.1 _ failed⟩

/-- Of three declarations of a name the last one is blamed. -/
example : parse {} "clash.proto" "message A \x7b\x7d service A \x7b\x7d enum A \x7b\x7d".toList =
    .error (.violation (.duplicateName "<file>" "A") ⟨1, 27, 26⟩) := by
  decide +kernel

end ProtoSchema
