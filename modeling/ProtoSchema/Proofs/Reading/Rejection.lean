import ProtoSchema.Proofs.Lexing.Place
import ProtoSchema.Proofs.Reading.Verdict

/-!
# The first declaration that is rejected

Of the declarations of a text that break a rule, the one that ends first is reported, at its first
token. Only if there is none, the file as a whole is checked.
-/

namespace ProtoSchema

open Reader Grammar

namespace Reading

variable {ending : Ending} {ts mid rest : List Located} {budget : Nat} {scope : Scope}

/-! ### Messages -/

private theorem word_of_block {α β : Type} {k : Keyword} {isName : String → Prop}
    {P : String → Phrase α} {make : Located → String → List α → Except Violation β} {t : Located}
    {j : Judged β} (h : JudgesBlock k isName P make (t :: ts) j rest) : t.token = k.token := by
  cases h with
  | intro word => exact word

private theorem word_of_message {t : Located} {j : Judged Message}
    (h : JudgesMessage budget scope (t :: ts) j rest) : t.token = Keyword.messageWord.token := by
  cases budget with
  | zero => exact h.elim
  | succ budget => exact word_of_block h

section Messages

variable {M : Phrase Message} (fills : ∀ {ts rest j}, M ts j rest → j.Fills ts rest)

include fills

theorem fills_of_messageStatement {j : Judged MessageStatement}
    (h : JudgesMessageStatement M budget scope ts j rest) : j.Fills ts rest := by
  cases h with
  | empty => exact (Judged.spans_plain _).cons _
  | field phrase => exact fills_of_field phrase
  | message phrase => exact fills phrase
  | enumType phrase => exact fills_of_enumType phrase
  | extend phrase => exact fills_of_extend phrase
  | extensions phrase => exact fills_of_extensions phrase
  | option takes phrase => exact fills_of_option _ takes phrase

/-- The first word of a statement decides which reader is taken. -/
theorem yields_messageStatement {message : Reader Message} {j : Judged MessageStatement}
    (proper : ending.IsProper)
    (messages : ∀ {ts rest j}, M ts j rest → Yields message ending ts j rest)
    (word : ∀ {t ts rest j}, M (t :: ts) j rest → t.token = Keyword.messageWord.token)
    (h : JudgesMessageStatement M budget scope ts j rest) :
    Yields (messageStatement message budget scope) ending ts (j.map some) rest := by
  obtain ⟨t, ts, rfl⟩ := (fills_of_messageStatement fills h).exists_cons
  cases h with
  | empty found =>
    apply yields_of_reads
    rw [messageStatement, reads_peek_bind_iff]
    simp [found]
  | option takes phrase fits =>
    have found := optionWord_of_takes takes phrase
    apply yields_of_reads
    rw [messageStatement, reads_peek_bind_iff]
    simp only [found, Keyword.token, Keyword.ofSpelling?_spelling, Keyword.spelling_ne_map,
      if_false]
    exact (reads_optionWord_iff proper found).mpr ⟨_, rfl, _, takes, phrase, fits⟩
  | field phrase =>
    apply Yields.peek
    cases phrase with
    | labelled found isLabel takes behind =>
      have yields := yields_labelledField proper found isLabel
        (.labelled found isLabel takes behind)
      simp only [found, Keyword.token, Keyword.ofSpelling?_spelling, Keyword.spelling_ne_map,
        if_false]
      -- Three keywords are labels, and each of them is a case of its own.
      rename_i k _ _ _ _
      cases k <;> cases isLabel <;> exact yields.statement
    | map found takes behind =>
      have yields := yields_mapField proper found (.map found takes behind)
      simp only [found, if_true]
      exact yields.statement
  | message phrase =>
    apply Yields.peek
    simp only [word phrase, Keyword.token, Keyword.ofSpelling?_spelling, Keyword.spelling_ne_map,
      if_false]
    exact (messages phrase).statement
  | enumType phrase =>
    apply Yields.peek
    simp only [word_of_block phrase, Keyword.token, Keyword.ofSpelling?_spelling,
      Keyword.spelling_ne_map, if_false]
    exact (yields_enumType proper phrase).statement
  | extend phrase =>
    apply Yields.peek
    simp only [word_of_block phrase, Keyword.token, Keyword.ofSpelling?_spelling,
      Keyword.spelling_ne_map, if_false]
    exact (yields_extendBlock proper phrase).statement
  | extensions phrase =>
    have found : t.token = Keyword.extensionsWord.token := by
      cases phrase with
      | intro word => exact word
    apply Yields.peek
    simp only [found, Keyword.token, Keyword.ofSpelling?_spelling, Keyword.spelling_ne_map,
      if_false]
    exact (yields_extensions proper phrase).statement

end Messages

theorem fills_of_message {j : Judged Message} (h : JudgesMessage budget scope ts j rest) :
    j.Fills ts rest := by
  induction budget generalizing scope ts j rest with
  | zero => exact h.elim
  | succ budget ih => exact fills_of_block (fills_of_messageStatement ih) h

theorem yields_message {j : Judged Message} (proper : ending.IsProper)
    (h : JudgesMessage budget scope ts j rest) :
    Yields (message budget scope) ending ts j rest := by
  induction budget generalizing scope ts j rest with
  | zero => exact h.elim
  | succ budget ih =>
    -- A message is a block; the messages among its statements are left with a smaller budget.
    refine yields_block proper ?_
      (yields_messageStatement fills_of_message proper ih word_of_message)
      (fills_of_messageStatement fills_of_message) ?_ h
    · intro name d ts rest plain takes
      exact (reads_plainName_iff proper).mpr ⟨plain, d, takes⟩
    · intro _ t ts closes
      rw [messageStatement, reads_peek_bind_iff]
      simp [closes]

/-! ### Statements of a file -/

theorem fills_of_fileStatement {j : Judged FileStatement}
    (h : JudgesFileStatement budget scope ts j rest) : j.Fills ts rest := by
  cases h with
  | empty => exact (Judged.spans_plain _).cons _
  | imported takes phrase =>
    cases phrase <;> exact Judged.fills_of_takes _ takes
  | option takes phrase => exact fills_of_option _ takes phrase
  | message phrase => exact fills_of_message phrase
  | enumType phrase => exact fills_of_enumType phrase
  | service phrase => exact fills_of_service phrase
  | extend phrase => exact fills_of_extend phrase

/-- The first word of a statement decides which reader is taken. -/
theorem yields_fileStatement {j : Judged FileStatement} (proper : ending.IsProper)
    (h : JudgesFileStatement budget scope ts j rest) :
    Yields (fileStatement budget scope) ending ts (j.map some) rest := by
  obtain ⟨t, ts, rfl⟩ := (fills_of_fileStatement h).exists_cons
  cases h with
  | empty found =>
    apply yields_of_reads
    rw [fileStatement, reads_peek_bind_iff]
    simp [found]
  | imported takes phrase =>
    have word : t.token = Keyword.importWord.token := by
      cases phrase <;> exact token_of_takes takes
    have reads := (reads_importStatement_iff proper word).mpr ⟨_, _, rfl, _, takes, phrase⟩
    apply yields_of_reads
    rw [fileStatement, reads_peek_bind_iff]
    simp only [word, Keyword.token, Token.keyword?, Keyword.ofSpelling?_spelling, reduceCtorEq,
      if_false]
    exact reads_bind_iff.mpr ⟨_, _, reads, reads_pure_iff.mpr ⟨rfl, rfl⟩⟩
  | option takes phrase fits =>
    have word := optionWord_of_takes takes phrase
    apply yields_of_reads
    rw [fileStatement, reads_peek_bind_iff]
    simp only [word, Keyword.token, Token.keyword?, Keyword.ofSpelling?_spelling, reduceCtorEq,
      if_false]
    exact (reads_optionWord_iff proper word).mpr ⟨_, rfl, _, takes, phrase, fits⟩
  | message phrase =>
    apply Yields.peek
    simp only [word_of_message phrase, Keyword.token, Token.keyword?, Keyword.ofSpelling?_spelling,
      reduceCtorEq, if_false]
    exact (yields_message proper phrase).statement
  | enumType phrase =>
    apply Yields.peek
    simp only [word_of_block phrase, Keyword.token, Token.keyword?, Keyword.ofSpelling?_spelling,
      reduceCtorEq, if_false]
    exact (yields_enumType proper phrase).statement
  | service phrase =>
    apply Yields.peek
    simp only [word_of_block phrase, Keyword.token, Token.keyword?, Keyword.ofSpelling?_spelling,
      reduceCtorEq, if_false]
    exact (yields_service proper phrase).statement
  | extend phrase =>
    apply Yields.peek
    simp only [word_of_block phrase, Keyword.token, Token.keyword?, Keyword.ofSpelling?_spelling,
      reduceCtorEq, if_false]
    exact (yields_extendBlock proper phrase).statement

/-- Statements stop in front of a package declaration and at the end. -/
private theorem reads_fileStatement_none
    (stops : Sees (fun t => t = .eof ∨ t = Keyword.packageWord.token) ending ts) :
    Reads (fileStatement budget scope) ending ts none ts := by
  apply stops.reads_peek_bind
  rintro t (atEnd | found)
  · simp [atEnd]
  · simp [found, Keyword.token, Token.keyword?, Keyword.ofSpelling?_spelling]

/-! ### Version and package -/

section Files

variable {endMark : Located} (atEnd : endMark.token = .eof)

include atEnd

theorem yields_version {j : Judged (Option String)} (h : JudgesVersion ts j rest) :
    Yields versionStatement? (.finished endMark) ts j rest := by
  have proper : (Ending.finished endMark).IsProper := atEnd
  cases h with
  | absent other =>
    -- The next token may be the end of the text.
    refine yields_of_reads ((reads_ifKeyword_iff proper).mpr (.inr ⟨?_, ?_⟩))
    · cases ts with
      | nil => exact ⟨endMark, rfl, by simp [atEnd, Keyword.token]⟩
      | cons t ts => exact sees_cons_iff.mpr (other t rfl)
    · exact reads_pure_iff.mpr ⟨rfl, rfl⟩
  | @present version _ _ bytes ws start closed _ mid _ takes phrase decoded literal closes =>
    obtain ⟨_, first, equals⟩ := takes_head_iff.mp takes
    have begun : Reads (eatKeyword .syntaxWord) (.finished endMark) ts true _ :=
      (reads_eatKeyword_iff proper).mpr (.inl ⟨rfl, _, first⟩)
    have text : Reads (textLiteral .version) (.finished endMark) (start :: mid) version
        (closed :: rest) :=
      (reads_textLiteral_iff proper).mpr ⟨⟨ws, bytes, literal, phrase, decoded⟩,
        sees_cons_iff.mpr (by simp [closes, partOf?])⟩
    refine Yields.after ?_ begun
    refine Yields.expect (Yields.peek (Yields.after ?_ text)) proper equals
    refine Yields.expect ?_ proper (takes_of_token closes)
    exact Yields.map (yields_accept start closed (fun version =>
      demand (version = knownVersion) (.unsupportedVersion version)) version) fun _ => some version

omit atEnd in
theorem spans_of_version {j : Judged (Option String)} (h : JudgesVersion ts j rest) :
    j.Spans ts rest := by
  cases h with
  | absent => exact Judged.spans_plain none
  | present takes _ _ literal _ =>
    obtain ⟨_, first, equals⟩ := takes_head_iff.mp takes
    exact (((((Judged.spans_plain _).behind literal).declare _ _).map _).behind equals).behind first

theorem yields_fileStatements {j : Judged (List FileStatement)}
    (row : JudgesRow (JudgesFileStatement budget scope) ts j rest)
    (stops : Sees (fun t => t = .eof ∨ t = Keyword.packageWord.token) (.finished endMark) rest) :
    Yields (many (fileStatement budget scope)) (.finished endMark) ts j rest :=
  yields_many (yields_fileStatement atEnd) fills_of_fileStatement row
    (reads_fileStatement_none stops)

private theorem reads_packageStatement_none :
    Reads packageStatement? (.finished endMark) [] none [] := by
  have proper : (Ending.finished endMark).IsProper := atEnd
  apply (reads_packageStatement_iff proper).mpr
  refine .inl ⟨rfl, rfl, endMark, rfl, ?_⟩
  rw [atEnd]
  nofun

private theorem reads_packageStatement_some {t : Located} {package d d' d'' : String}
    (takes : Takes (t :: ts)
      [⟨Keyword.packageWord.token, d⟩, ⟨.ident package, d'⟩, ⟨.mark .semicolon, d''⟩] rest) :
    Reads packageStatement? (.finished endMark) (t :: ts) (some (t.position, package)) rest := by
  have proper : (Ending.finished endMark).IsProper := atEnd
  apply (reads_packageStatement_iff proper).mpr
  exact .inr ⟨t, package, rfl, rfl, _, takes, _, _, _, rfl⟩

omit atEnd in
theorem spans_of_behind {package : String} {j : Judged (List FileStatement)}
    (h : JudgesBehind budget package ts j) : j.Spans ts [] := by
  induction h with
  | last row => exact spans_of_row fills_of_fileStatement row
  | @again _ _ _ start _ _ _ _ _ _ row takes _ _ ih =>
    have declared := ((Judged.spans_plain ()).behind takes).declare start fun _ =>
      (.error (.duplicatePackage package) : Except Violation Unit)
    exact (spans_of_row fills_of_fileStatement row).map₂ (declared.map₂ ih _) _

/-- Behind a package declaration the statements are read up to a further one or to the end. -/
theorem yields_statementsOf {package : String} {j : Judged (List FileStatement)}
    (h : JudgesBehind budget package ts j) :
    Yields (statementsOf budget package) (.finished endMark) ts j [] := by
  cases h with
  | last row =>
    rw [← j.map_id]
    apply Yields.finish (yields_fileStatements atEnd row ⟨endMark, rfl, .inl atEnd⟩)
    intro statements
    exact reads_bind_iff.mpr ⟨none, [], reads_packageStatement_none atEnd,
      reads_pure_iff.mpr ⟨rfl, rfl⟩⟩
  | @again name _ _ start closed _ mid rest j k row takes closes _ =>
    have word := token_of_takes takes
    apply Yields.map₂ (yields_fileStatements atEnd row (sees_cons_iff.mpr (.inr word)))
    intro statements
    -- The further declaration is read to its end and refused, whatever stands behind it.
    have again := reads_packageStatement_some atEnd (takes.trans (takes_of_token closes))
    refine Yields.after ?_ again
    exact @Yields.rejected _ _ _ _ [] _ ⟨start, closed, some (.duplicatePackage package)⟩ _ _
      (by simp) rfl rfl

omit atEnd in
theorem spans_of_file {j : Judged FileText} (h : JudgesFile budget ts j) : j.Spans ts [] := by
  cases h with
  | withoutPackage version row =>
    exact (spans_of_version version).map₂ (spans_of_row fills_of_fileStatement row) _
  | withPackage version row takes behind =>
    have statements := spans_of_row fills_of_fileStatement row
    exact (spans_of_version version).map₂
      (statements.map₂ ((spans_of_behind behind).behind takes) _) _

theorem yields_fileText {j : Judged FileText} (h : JudgesFile budget ts j) :
    Yields (fileText budget) (.finished endMark) ts j [] := by
  cases h with
  | withoutPackage version row =>
    apply Yields.map₂ (yields_version atEnd version)
    intro version
    apply Yields.finish (yields_fileStatements atEnd row ⟨endMark, rfl, .inl atEnd⟩)
    intro statements
    exact reads_bind_iff.mpr ⟨none, [], reads_packageStatement_none atEnd,
      reads_pure_iff.mpr ⟨rfl, rfl⟩⟩
  | withPackage version row takes behind =>
    apply Yields.map₂ (yields_version atEnd version)
    intro version
    obtain ⟨start, _, rfl, word, _⟩ := takes_cons_iff.mp takes
    have found := (Located.word_eq_iff.mp word).1
    rw [Judged.map_map₂]
    apply Yields.map₂ (yields_fileStatements atEnd row (sees_cons_iff.mpr (.inr found)))
    intro statements
    refine Yields.after ?_ (reads_packageStatement_some atEnd takes)
    exact (yields_statementsOf atEnd behind).map _

end Files

end Reading

/-! ### Texts -/

/-- The last tokens of declarations stand behind each other. -/
theorem TokenStream.pairwise_of_spans {α : Type} {config : DocConfig} {text : List Char}
    {j : Judged α} {rest : List Located} (h : j.Spans (ofText config text).tokens rest) :
    j.verdicts.Pairwise fun u v => u.last.position.offset < v.last.position.offset := by
  obtain ⟨used, whole, inside⟩ := h
  have ordered := TokenStream.offsets_ofText config text
  rw [TokenStream.positions, List.map_append, List.map_map, List.pairwise_append, whole] at ordered
  -- Positions grow along a text, so they grow along each part of it.
  have front : used.Pairwise fun t u => t.position.offset < u.position.offset :=
    (List.pairwise_map.mp ordered.1).sublist (List.sublist_append_left used rest)
  have lasts := front.sublist inside
  rwa [List.pairwise_map] at lasts

/-- A text that is made of the right phrases fails exactly if a declaration in it breaks a rule or
the file as a whole does. The rule that is reported is broken by the declaration that ends first of
those that break one, and is reported at the first token of the declaration. The file as a whole is
only checked if no declaration breaks a rule. -/
theorem parse_of_judgesFile {config : DocConfig} {name : String} {text : List Char}
    {endMark : Located} {j : Judged Reading.FileText}
    (finished : (TokenStream.ofText config text).ending = .finished endMark)
    (judged : JudgesFile Reading.nestingLimit (TokenStream.ofText config text).tokens j) :
    ((∃ v ∈ j.verdicts, v.broken ≠ none) →
      ∃ v ∈ j.verdicts, ∃ broken, v.broken = some broken ∧
        (∀ u ∈ j.verdicts, u.broken ≠ none →
          u = v ∨ v.last.position.offset < u.last.position.offset) ∧
        parse config name text = .error (.violation broken v.first.position)) ∧
      ((∀ v ∈ j.verdicts, v.broken = none) →
        ∃ t, j.value = some t ∧
          parse config name text =
            match SchemaFile.make name t.body with
            | .ok f => .ok f
            | .error broken => .error (.violation broken (t.positionOf broken))) := by
  have proper := TokenStream.ofText_isProper config text
  rw [finished] at proper
  have ordered := TokenStream.pairwise_of_spans (Reading.spans_of_file judged)
  have outcome := Reading.yields_fileText proper judged
  rw [parse, ofStream, finished, Reading.file]
  cases outcome with
  -- No declaration breaks a rule, so the file as a whole is checked.
  | @accepted verdicts t _ sound reads =>
    refine ⟨fun ⟨v, member, broken⟩ => absurd (sound v member) broken, fun _ => ⟨t, rfl, ?_⟩⟩
    rw [run_bind_of_reads reads]
    cases SchemaFile.make name t.body with
    | ok f => rfl
    | error broken => rfl
  -- The reader stops at the declaration that ends first, and all verdicts behind that one are on
  -- declarations that end later.
  | @rejected before after v broken _ sound found failed =>
    rw [run_bind_of_error failed]
    constructor
    · intro _
      refine ⟨v, by simp, broken, found, fun u member breaks => ?_, rfl⟩
      rcases List.mem_append.mp member with first | later
      · exact absurd (sound u first) breaks
      · rcases List.mem_cons.mp later with rfl | behind
        · exact .inl rfl
        · have pairs := (List.pairwise_append.mp ordered).2.1
          exact .inr ((List.pairwise_cons.mp pairs).1 u behind)
    · intro none
      rw [none v (by simp)] at found
      cases found

/-! ### Two broken fields -/

/-- A token in the first line. -/
private def inLine (token : Token) (column : Nat) : Located :=
  ⟨token, ⟨1, column, column - 1⟩, none⟩

/-- The tokens of a field with a number that is not allowed. -/
private def brokenField (name : String) (column : Nat) : List Located :=
  [inLine (.ident "optional") column, inLine (.ident "Y") (column + 9),
    inLine (.ident name) (column + 11), inLine (.mark .equals) (column + 13),
    inLine (.int 0) (column + 15), inLine (.mark .semicolon) (column + 16)]

private theorem judges_brokenField {name : String} (column : Nat) (rest : List Located)
    (plain : isPlainName name = true) :
    JudgesField Reading.nestingLimit (brokenField name column ++ rest)
      ((Judged.plain []).declare (inLine (.ident "optional") column)
        (inLine (.mark .semicolon) (column + 16)) (Field.make .optional "Y" name 0 "")) rest := by
  have number : Takes (inLine (.ident name) (column + 11) :: inLine (.mark .equals) (column + 13) ::
      inLine (.int 0) (column + 15) :: inLine (.mark .semicolon) (column + 16) :: rest)
      [⟨.ident name, ""⟩, ⟨.mark .equals, ""⟩, ⟨.int 0, ""⟩]
      (inLine (.mark .semicolon) (column + 16) :: rest) :=
    ⟨[inLine (.ident name) (column + 11), inLine (.mark .equals) (column + 13),
      inLine (.int 0) (column + 15)], rfl, rfl⟩
  have type : Takes (inLine (.ident "Y") (column + 9) :: inLine (.ident name) (column + 11) ::
      inLine (.mark .equals) (column + 13) :: inLine (.int 0) (column + 15) ::
      inLine (.mark .semicolon) (column + 16) :: rest) [⟨.ident "Y", ""⟩] _ :=
    takes_single_iff.mpr ⟨_, rfl, rfl⟩
  exact .labelled (k := .optionalWord) rfl rfl type
    (.intro plain number .absent (by simp) (takes_nil_iff.mpr rfl) rfl)

/-- Two such fields and the brace behind them. -/
private def brokenFields : List Located :=
  brokenField "a" 12 ++ (brokenField "b" 30 ++ [inLine (.mark .closeBrace) 48])

/-- An extend block with these fields. -/
private def brokenExtend : List Located :=
  inLine (.ident "extend") 1 :: inLine (.ident "X") 8 :: inLine (.mark .openBrace) 10 ::
    brokenFields

private theorem exists_judged_brokenExtend :
    ∃ j : Judged Reading.FileText, JudgesFile Reading.nestingLimit brokenExtend j ∧
      j.verdicts =
        [⟨inLine (.ident "optional") 12, inLine (.mark .semicolon) 28,
            some (.tagOutOfRange "a" 0)⟩,
          ⟨inLine (.ident "optional") 30, inLine (.mark .semicolon) 46,
            some (.tagOutOfRange "b" 0)⟩] := by
  have row : JudgesRow (JudgesExtendStatement Reading.nestingLimit) brokenFields _
      [inLine (.mark .closeBrace) 48] :=
    .cons (.field (k := .optionalWord) rfl rfl (judges_brokenField 12 _ rfl))
      (.cons (.field (k := .optionalWord) rfl rfl (judges_brokenField 30 _ rfl)) .nil)
  have target : Takes (inLine (.ident "X") 8 :: inLine (.mark .openBrace) 10 :: brokenFields)
      [⟨.ident "X", ""⟩] (inLine (.mark .openBrace) 10 :: brokenFields) :=
    takes_single_iff.mpr ⟨_, rfl, rfl⟩
  refine ⟨_, .withoutPackage (.absent ?_)
    (.cons (.extend (.intro rfl trivial target rfl row rfl)) .nil), ?_⟩
  · decide
  · decide

/-- Of two fields that break a rule the first one is reported. -/
theorem brokenFields_parse :
    parse {} "fields.proto" "extend X { optional Y a = 0; optional Y b = 0; }".toList =
      .error (.violation (.tagOutOfRange "a" 0) ⟨1, 12, 11⟩) := by
  have stream : TokenStream.ofText {} "extend X { optional Y a = 0; optional Y b = 0; }".toList =
      ⟨brokenExtend, .finished (inLine .eof 49)⟩ := by
    decide +kernel
  obtain ⟨j, judged, verdicts⟩ := exists_judged_brokenExtend
  have finished := congrArg TokenStream.ending stream
  have tokens : (TokenStream.ofText {} _).tokens = brokenExtend :=
    congrArg TokenStream.tokens stream
  rw [← tokens] at judged
  obtain ⟨v, member, broken, found, earliest, failed⟩ :=
    (parse_of_judgesFile finished judged).1 (by simp [verdicts])
  rw [verdicts] at member earliest
  rcases List.mem_pair.mp member with rfl | rfl
  · cases found
    exact failed
  -- The second field does not end before the first one.
  · rcases earliest _ List.mem_cons_self (by simp) with same | before
    · cases same
    · exact absurd before (by decide)

end ProtoSchema
