import ProtoSchema.Proofs.Reading.Declaration

/-!
# The reader of messages accepts its grammar

A message is read if its depth is within the budget. The induction is on the budget: the reader of
the statements inside a message knows about inner messages only what the budget below them says.
-/

namespace ProtoSchema.Reading

open Reader Grammar

variable {ending : Ending} {ts rest : List Located} {budget : Nat} {scope : Scope}

/-- What a statement declares has a depth within a budget. -/
def MessageStatement.Fits (budget : Nat) (s : MessageStatement) : Prop :=
  (∀ f, s.field? = some f → f.depth ≤ budget) ∧ (∀ t, s.nested? = some t → t.depth ≤ budget) ∧
    (∀ e, s.extend? = some e → e.depth ≤ budget) ∧ ∀ st, s.option? = some st → st.depth ≤ budget

namespace MessageStatement

@[simp] theorem fits_empty : (empty).Fits budget := by
  simp [Fits, field?, nested?, extend?, option?]

@[simp] theorem fits_field_iff {f : Field} : (field f).Fits budget ↔ f.depth ≤ budget := by
  simp [Fits, field?, nested?, extend?, option?]

@[simp] theorem fits_nested_iff {t : TypeDecl} : (nested t).Fits budget ↔ t.depth ≤ budget := by
  simp [Fits, field?, nested?, extend?, option?]

@[simp] theorem fits_extend_iff {e : ExtendBlock} : (extend e).Fits budget ↔ e.depth ≤ budget := by
  simp [Fits, field?, nested?, extend?, option?]

@[simp] theorem fits_extensions {ranges : List ExtensionRange} :
    (extensions ranges).Fits budget := by
  simp [Fits, field?, nested?, extend?, option?]

@[simp] theorem fits_option_iff {s : Setting} : (option s).Fits budget ↔ s.depth ≤ budget := by
  simp [Fits, field?, nested?, extend?, option?]

end MessageStatement

/-- A message that is made of statements fits if there is room for one more level than they need. -/
theorem depth_le_succ_iff_fits {name fullName doc : String} {statements : List MessageStatement}
    {m : Message} (made : Message.make name fullName doc (bodyOfStatements statements) = .ok m) :
    m.depth ≤ budget + 1 ↔ ∀ s ∈ statements, s.Fits budget := by
  obtain ⟨_, _, _, _, rfl⟩ := Message.make_eq_ok_iff.mp made
  simp only [Message.depth_le_iff, bodyOfStatements, List.forall_mem_filterMap,
    MessageStatement.Fits, forall_and]

/-- A statement that is not empty. -/
private def IsMessagePart (budget : Nat) (scope : Scope) (ws : List Word) (s : MessageStatement) :
    Prop :=
  s ≠ .empty ∧ IsMessageStatement scope ws s ∧ s.Fits budget

private theorem isMessageStatement_iff {ws : List Word} {s : MessageStatement} :
    IsStatement .empty (IsMessagePart budget scope) ws s ↔
      IsMessageStatement scope ws s ∧ s.Fits budget := by
  constructor
  · rintro (⟨rfl, d, rfl⟩ | ⟨_, phrase, fits⟩)
    · exact ⟨.inl .empty, by simp⟩
    · exact ⟨phrase, fits⟩
  · rintro ⟨phrase, fits⟩
    by_cases empty : s = .empty
    · subst empty
      rcases phrase with phrase | ⟨_, same, _⟩
      · cases phrase
        exact .inl ⟨rfl, _, rfl⟩
      · cases same
    · exact .inr ⟨empty, phrase, fits⟩

/-- The word that each kind of statement begins with. -/
private theorem exists_cons_of_isMessagePart {ws : List Word} {s : MessageStatement}
    (h : IsMessagePart budget scope ws s) :
    ∃ w ws' name, ws = w :: ws' ∧ w.token = .ident name := by
  obtain ⟨nonempty, phrase | ⟨m, rfl, phrase⟩, _⟩ := h
  · cases phrase with
    | empty => exact absurd rfl nonempty
    | field phrase => cases phrase; exact ⟨_, _, _, rfl, rfl⟩
    | mapField phrase => cases phrase; exact ⟨_, _, _, rfl, rfl⟩
    | enumType phrase => cases phrase; exact ⟨_, _, _, rfl, rfl⟩
    | extend phrase => cases phrase; exact ⟨_, _, _, rfl, rfl⟩
    | extensions phrase => cases phrase; exact ⟨_, _, _, rfl, rfl⟩
    | option phrase => cases phrase; exact ⟨_, _, _, rfl, rfl⟩
  · cases phrase
    exact ⟨_, _, _, rfl, rfl⟩

theorem messageWord_of_takes {t : Located} {ws : List Word} {m : Message}
    (takes : Takes (t :: ts) ws rest) (phrase : IsMessage scope ws m) :
    t.token = Keyword.messageWord.token := by
  cases phrase
  exact token_of_takes takes

section Parts

variable {message : Reader Message} {t : Located} (proper : ending.IsProper)
  (messages : ∀ {ts rest m}, Reads message ending ts m rest ↔
    ∃ ws, Takes ts ws rest ∧ IsMessage scope ws m ∧ m.depth ≤ budget)

include proper messages

/-- What is read as a statement of a message is one. -/
private theorem exists_isMessagePart_of_reads {o : Option MessageStatement}
    (more : t.token ≠ .mark .closeBrace) (other : t.token ≠ .mark .semicolon)
    (h : Reads (messageStatement message budget scope) ending (t :: ts) o rest) :
    ∃ s, o = some s ∧ ∃ ws, Takes (t :: ts) ws rest ∧ IsMessagePart budget scope ws s := by
  rw [messageStatement, reads_peek_bind_iff] at h
  split at h
  next => contradiction
  next => contradiction
  next name found =>
    split at h
    next isMap =>
      subst isMap
      exact exists_statement_of_reads (reads_mapField_iff proper found).mp
        (fun field => ⟨by simp, .inl (.mapField field.1), by simpa using field.2⟩) h
    next =>
      have spelled {k : Keyword} (h : Keyword.ofSpelling? name = some k) : t.token = k.token :=
        Token.keyword?_eq_some_iff.mp (by rw [found]; exact h)
      split at h
      next isMessage =>
        exact exists_statement_of_reads messages.mp
          (fun m => ⟨by simp, .inr ⟨_, rfl, m.1⟩, by simpa [TypeDecl.depth] using m.2⟩) h
      next isEnum =>
        exact exists_statement_of_reads (reads_enumType_iff proper).mp
          (fun e => ⟨by simp, .inl (.enumType e.1), by simpa [TypeDecl.depth] using e.2⟩) h
      next isExtend =>
        exact exists_statement_of_reads (reads_extendBlock_iff proper).mp
          (fun e => ⟨by simp, .inl (.extend e.1), by simpa using e.2⟩) h
      next isExtensions =>
        exact exists_statement_of_reads (reads_extensions_iff proper).mp
          (fun ranges => ⟨by simp, .inl (.extensions ranges), by simp⟩) h
      next isOption =>
        obtain ⟨s, rfl, ws, takes, phrase, depth⟩ :=
          (reads_optionWord_iff proper (spelled isOption)).mp h
        exact ⟨_, rfl, ws, takes, by simp, .inl (.option phrase), by simpa using depth⟩
      next k _ _ _ _ _ isKeyword =>
        split at h
        next label isLabel =>
          exact exists_statement_of_reads
            (reads_labelledField_iff proper (spelled isKeyword) isLabel).mp
            (fun field => ⟨by simp, .inl (.field field.1), by simpa using field.2⟩) h
        next => exact absurd h not_reads_unexpected
      next => exact absurd h not_reads_unexpected
  next => exact absurd h not_reads_unexpected

/-- The first word of a statement decides which reader is taken, and that one reads it. -/
private theorem reads_messageStatement_of {ws : List Word} {s : MessageStatement}
    (takes : Takes (t :: ts) ws rest) (part : IsMessagePart budget scope ws s) :
    Reads (messageStatement message budget scope) ending (t :: ts) (some s) rest := by
  obtain ⟨nonempty, phrase, fits⟩ := part
  rw [messageStatement, reads_peek_bind_iff]
  rcases phrase with phrase | ⟨m, rfl, phrase⟩
  · cases phrase with
    | empty => exact absurd rfl nonempty
    | mapField phrase =>
      have word : t.token = .ident "map" := by
        cases phrase
        exact token_of_takes takes
      have reads := (reads_mapField_iff proper word).mpr ⟨ws, takes, phrase, by simpa using fits⟩
      simp only [word, if_true]
      exact reads_statement_of reads
    | field phrase =>
      obtain ⟨k, label, word, isLabel⟩ := label_of_takes_isField takes phrase
      have reads := (reads_labelledField_iff proper word isLabel).mpr
        ⟨ws, takes, phrase, by simpa using fits⟩
      simp only [word, Keyword.token, Keyword.ofSpelling?_spelling, Keyword.spelling_ne_map,
        if_false]
      cases k <;> cases isLabel <;> exact reads_statement_of reads
    | option phrase =>
      have word := optionWord_of_takes takes phrase
      simp only [word, Keyword.token, Keyword.ofSpelling?_spelling, Keyword.spelling_ne_map,
        if_false]
      exact (reads_optionWord_iff proper word).mpr
        ⟨_, rfl, ws, takes, phrase, by simpa using fits⟩
    | enumType phrase =>
      have reads := (reads_enumType_iff proper).mpr
        ⟨ws, takes, phrase, by simpa [TypeDecl.depth] using fits⟩
      simp only [enumWord_of_takes takes phrase, Keyword.token, Keyword.ofSpelling?_spelling,
        Keyword.spelling_ne_map, if_false]
      exact reads_statement_of reads
    | extend phrase =>
      have reads := (reads_extendBlock_iff proper).mpr ⟨ws, takes, phrase, by simpa using fits⟩
      simp only [extendWord_of_takes takes phrase, Keyword.token, Keyword.ofSpelling?_spelling,
        Keyword.spelling_ne_map, if_false]
      exact reads_statement_of reads
    | extensions phrase =>
      have word : t.token = Keyword.extensionsWord.token := by
        cases phrase
        exact token_of_takes takes
      have reads := (reads_extensions_iff proper).mpr ⟨ws, takes, phrase⟩
      simp only [word, Keyword.token, Keyword.ofSpelling?_spelling, Keyword.spelling_ne_map,
        if_false]
      exact reads_statement_of reads
  · have reads := messages.mpr ⟨ws, takes, phrase, by simpa [TypeDecl.depth] using fits⟩
    simp only [messageWord_of_takes takes phrase, Keyword.token, Keyword.ofSpelling?_spelling,
      Keyword.spelling_ne_map, if_false]
    exact reads_statement_of reads

private theorem reads_messageStatements_iff {statements : List MessageStatement} :
    Reads (many (messageStatement message budget scope)) ending ts statements rest ↔
      (∃ ws, Takes ts ws rest ∧ IsMessageBody scope ws statements ∧
        ∀ s ∈ statements, s.Fits budget) ∧
        Sees (· = .mark .closeBrace) ending rest := by
  simp only [isMessageBody_iff, ← IsSequence.and_iff, ← isMessageStatement_iff]
  refine IsStatementReader.reads_many_iff ⟨?_, ?_, ?_, ?_, by simp, ?_⟩ proper
  · intro t closes
    simp [closes]
  · intro t skips
    simp [skips]
  · intro t ts rest o more other
    constructor
    · intro reads
      exact exists_isMessagePart_of_reads proper messages more other (reads_peek_bind_iff.mpr reads)
    · rintro ⟨s, rfl, ws, takes, part⟩
      exact reads_peek_bind_iff.mp (reads_messageStatement_of proper messages takes part)
  · intro t o rest atEnd _
    simp [atEnd]
  · intro ws s phrase
    obtain ⟨w, ws', name, rfl, found⟩ := exists_cons_of_isMessagePart phrase
    exact ⟨w, ws', rfl, by simp [found]⟩

end Parts

private theorem reads_messageSucc_iff {m : Message} (proper : ending.IsProper)
    (inside : ∀ {scope ts rest m}, Reads (message budget scope) ending ts m rest ↔
      ∃ ws, Takes ts ws rest ∧ IsMessage scope ws m ∧ m.depth ≤ budget) :
    Reads (message (budget + 1) scope) ending ts m rest ↔
      ∃ ws, Takes ts ws rest ∧ IsMessage scope ws m ∧ m.depth ≤ budget + 1 := by
  simp only [message, reads_bind_iff, reads_expectKeyword_iff proper, reads_plainName_iff proper,
    reads_expect_iff proper, reads_messageStatements_iff proper inside, reads_accept_iff]
  constructor
  · rintro ⟨start, _, ⟨rfl, word⟩, name, _, ⟨plain, d, takesName⟩, _, _, ⟨d', opened⟩, statements, _,
      ⟨⟨ws, takes, body, fits⟩, _⟩, _, _, ⟨d'', closed⟩, made, rfl⟩
    exact ⟨_, takes_cons_cons_iff.mpr ⟨Located.word_eq_iff.mpr ⟨word, rfl⟩,
      takesName.trans (opened.trans (takes.trans closed))⟩, .intro plain body made,
      (depth_le_succ_iff_fits made).mpr fits⟩
  · rintro ⟨_, takes, phrase, depth⟩
    cases phrase with
    | @intro _ name _ _ _ _ statements _ _ plain body made =>
      obtain ⟨start, _, rfl, word, behind⟩ := takes_cons_iff.mp takes
      obtain ⟨here, rfl⟩ := Located.word_eq_iff.mp word
      obtain ⟨_, takesName, behind⟩ := takes_head_iff.mp behind
      obtain ⟨_, opened, behind⟩ := takes_head_iff.mp behind
      obtain ⟨_, takes, closed⟩ := takes_append_iff.mp behind
      have fits := (depth_le_succ_iff_fits made).mp depth
      exact ⟨start, _, ⟨rfl, here⟩, name, _, ⟨plain, _, takesName⟩, ⟨⟩, _, ⟨_, opened⟩, statements, _,
        ⟨⟨_, takes, body, fits⟩, closed.sees rfl⟩, ⟨⟩, _, ⟨_, closed⟩, made, rfl⟩

/-- The reader of messages accepts the messages whose depth is within its budget. -/
theorem reads_message_iff {m : Message} (proper : ending.IsProper) :
    Reads (message budget scope) ending ts m rest ↔
      ∃ ws, Takes ts ws rest ∧ IsMessage scope ws m ∧ m.depth ≤ budget := by
  induction budget generalizing scope ts rest m with
  | zero =>
    have positive : ¬ m.depth ≤ 0 := Nat.not_le.mpr m.depth_pos
    simp [message, tooDeep, positive]
  | succ budget ih => exact reads_messageSucc_iff proper ih

end ProtoSchema.Reading
