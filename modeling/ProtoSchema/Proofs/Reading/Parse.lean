import ProtoSchema.Proofs.Reading.File

/-!
# Parsing accepts the grammar

A text is parsed if it is without lexical faults and its words are a file of the grammar that obeys
the rules and is not nested too deeply; the result is what the grammar says.
-/

namespace ProtoSchema

open Reader Grammar

/-- Outcomes are compared like what they hold, so that parsing a given text can be evaluated. -/
instance decidableEqExcept {ε α : Type} [DecidableEq ε] [DecidableEq α] :
    DecidableEq (Except ε α)
  | .ok x, .ok y => decidable_of_iff (x = y) (by simp)
  | .error x, .error y => decidable_of_iff (x = y) (by simp)
  | .ok _, .error _ => isFalse nofun
  | .error _, .ok _ => isFalse nofun

/-- A lexer ends properly, and no token in front of the end is an end mark. -/
theorem Lexer.run_isProper (l : Lexer) :
    l.run.ending.IsProper ∧ ∀ t ∈ l.run.tokens, t.token ≠ .eof := by
  fun_induction Lexer.run l with
  | case1 => exact ⟨trivial, by simp⟩
  | case2 l t after _ atEnd => exact ⟨atEnd, by simp⟩
  | case3 l t after _ more stream ih => exact ⟨ih.1, by simpa [more] using ih.2⟩

theorem TokenStream.ofText_isProper (config : DocConfig) (text : List Char) :
    (ofText config text).ending.IsProper :=
  (Lexer.run_isProper _).1

theorem TokenStream.ne_eof_of_mem_ofText {config : DocConfig} {text : List Char} {t : Located}
    (member : t ∈ (ofText config text).tokens) : t.token ≠ .eof :=
  (Lexer.run_isProper _).2 t member

theorem Reader.ofStream_eq_ok_iff {α : Type} {reader : Reader α} {stream : TokenStream} {v : α} :
    reader.ofStream stream = .ok v ↔ ∃ rest, Reads reader stream.ending stream.tokens v rest := by
  unfold ofStream Reads
  cases (reader.run stream.ending).run stream.tokens with
  | error error => simp [Except.map]
  | ok result =>
    obtain ⟨w, rest⟩ := result
    simp [Except.map]

theorem Reader.ofStream_eq_error_iff {α : Type} {reader : Reader α} {stream : TokenStream}
    {e : ReadError} : reader.ofStream stream = .error e ↔
      (reader.run stream.ending).run stream.tokens = .error e := by
  unfold ofStream
  cases (reader.run stream.ending).run stream.tokens <;> simp [Except.map]

/-- The end of the text is seen behind the last token of a text without lexical faults. -/
theorem sees_eof_iff {stream : TokenStream} {rest : List Located}
    (proper : stream.ending.IsProper) (more : ∀ t ∈ rest, t.token ≠ .eof) :
    Sees (· = .eof) stream.ending rest ↔ rest = [] ∧ ∃ endMark, stream.ending = .finished endMark := by
  cases rest with
  | cons t rest => simpa using more t List.mem_cons_self
  | nil =>
    cases ending : stream.ending with
    | failed error => simp [Sees, front?]
    | finished endMark =>
      rw [ending] at proper
      exact ⟨fun _ => ⟨rfl, endMark, rfl⟩, fun _ => ⟨endMark, rfl, proper⟩⟩

/-- Of a whole stream the reader of files makes what the grammar says. -/
theorem Reading.ofStream_file_iff {budget : Nat} {name : String} {stream : TokenStream}
    {f : SchemaFile} (proper : stream.ending.IsProper) (more : ∀ t ∈ stream.tokens, t.token ≠ .eof) :
    (file budget name).ofStream stream = .ok f ↔
      ∃ words text, stream.words? = some words ∧ IsFile words text ∧
        SchemaFile.make name text.body = .ok f ∧ f.depth ≤ budget := by
  simp only [ofStream_eq_ok_iff, reads_file_iff proper, TokenStream.words?]
  constructor
  · rintro ⟨rest, ⟨ws, text, ⟨used, whole, rfl⟩, phrase, made, depth⟩, atEnd⟩
    have behind : ∀ t ∈ rest, t.token ≠ .eof := fun t member =>
      more t (whole ▸ List.mem_append_right _ member)
    obtain ⟨rfl, endMark, ending⟩ := (sees_eof_iff proper behind).mp atEnd
    rw [List.append_nil] at whole
    exact ⟨_, text, by rw [ending, whole], phrase, made, depth⟩
  · rintro ⟨words, text, whole, phrase, made, depth⟩
    split at whole
    next endMark ending =>
      cases whole
      exact ⟨[], ⟨_, text, ⟨_, by simp, rfl⟩, phrase, made, depth⟩,
        (sees_eof_iff proper (by simp)).mpr ⟨rfl, endMark, ending⟩⟩
    next => cases whole

/-- A text is parsed to a file exactly if its words, without lexical faults, are a file of the
grammar out of which that file is made, and at most a hundred messages and bracketed values stand
inside each other. -/
theorem parse_eq_ok_iff_isFile {config : DocConfig} {name : String} {text : List Char}
    {f : SchemaFile} :
    parse config name text = .ok f ↔
      ∃ words t, (TokenStream.ofText config text).words? = some words ∧ IsFile words t ∧
        SchemaFile.make name t.body = .ok f ∧ f.depth ≤ Reading.nestingLimit :=
  Reading.ofStream_file_iff (TokenStream.ofText_isProper config text) fun _ =>
    TokenStream.ne_eof_of_mem_ofText

end ProtoSchema
