import ProtoSchema.Proofs.Grammar.File
import ProtoSchema.Proofs.Reading.Message
import ProtoSchema.Parse

/-!
# The reader of files accepts its grammar

The grammar does not know where declarations stand, so statements are compared without their
places; what is made of them is the same.
-/

namespace ProtoSchema.Reading

open Reader Grammar

variable {ending : Ending} {ts rest : List Located} {budget : Nat} {scope : Scope}

/-! ### Statements -/

namespace FileStatement

/-- A statement that has lost its place. -/
def placeless : FileStatement → FileStatement
  | type _ t => .type .start t
  | service _ s => .service .start s
  | s => s

/-- What a statement declares has a depth within a budget. -/
def Fits (budget : Nat) (s : FileStatement) : Prop :=
  (∀ t, s.type? = some t → t.depth ≤ budget) ∧ (∀ d, s.service? = some d → d.depth ≤ budget) ∧
    (∀ e, s.extend? = some e → e.depth ≤ budget) ∧ ∀ st, s.option? = some st → st.depth ≤ budget

@[simp] theorem fits_empty : (empty).Fits budget := by
  simp [Fits, type?, service?, extend?, option?]

@[simp] theorem fits_imported {isPublic : Bool} {path : String} :
    (imported isPublic path).Fits budget := by
  simp [Fits, type?, service?, extend?, option?]

@[simp] theorem fits_option_iff {s : Setting} : (option s).Fits budget ↔ s.depth ≤ budget := by
  simp [Fits, type?, service?, extend?, option?]

@[simp] theorem fits_type_iff {p : Position} {t : TypeDecl} :
    (type p t).Fits budget ↔ t.depth ≤ budget := by
  simp [Fits, type?, service?, extend?, option?]

@[simp] theorem fits_service_iff {p : Position} {s : Service} :
    (service p s).Fits budget ↔ s.depth ≤ budget := by
  simp [Fits, type?, service?, extend?, option?]

@[simp] theorem fits_extend_iff {e : ExtendBlock} : (extend e).Fits budget ↔ e.depth ≤ budget := by
  simp [Fits, type?, service?, extend?, option?]

theorem Fits.mono {budget' : Nat} {s : FileStatement} (h : s.Fits budget) (le : budget ≤ budget') :
    s.Fits budget' := by
  obtain ⟨types, services, extends', options⟩ := h
  exact ⟨fun t picked => Nat.le_trans (types t picked) le,
    fun d picked => Nat.le_trans (services d picked) le,
    fun e picked => Nat.le_trans (extends' e picked) le,
    fun st picked => Nat.le_trans (options st picked) le⟩

end FileStatement

/-- An import statement is read if its first word is the keyword. -/
theorem reads_importStatement_iff {t : Located} {s : FileStatement}
    (proper : ending.IsProper) (word : t.token = Keyword.importWord.token) :
    Reads importStatement ending (t :: ts) s rest ↔ ∃ isPublic path, .imported isPublic path = s ∧
      ∃ ws, Takes (t :: ts) ws rest ∧ IsImport ws isPublic path := by
  simp only [importStatement, reads_bind_iff, reads_discard_iff, reads_next_iff,
    reads_eatKeyword_iff proper, reads_textLiteral_iff proper, reads_expect_iff proper,
    reads_pure_iff]
  constructor
  · rintro ⟨_, _, ⟨_, _, rfl⟩, isPublic, _, shared, path, _, ⟨⟨ws, bytes, takes, phrase, decoded⟩, _⟩,
      _, _, ⟨d, closed⟩, rfl, rfl⟩
    have first := Located.word_eq_iff.mpr ⟨word, rfl⟩
    refine ⟨isPublic, path, rfl, ?_⟩
    rcases shared with ⟨rfl, d', publicWord⟩ | ⟨rfl, rfl, _⟩
    · exact ⟨_, takes_cons_cons_iff.mpr ⟨first, publicWord.trans (takes.trans closed)⟩,
        .shared phrase decoded⟩
    · exact ⟨_, takes_cons_cons_iff.mpr ⟨first, takes.trans closed⟩, .plain phrase decoded⟩
  · rintro ⟨isPublic, path, rfl, ws, takes, phrase⟩
    cases phrase with
    | plain phrase decoded =>
      obtain ⟨_, behind⟩ := takes_cons_cons_iff.mp takes
      obtain ⟨_, takes, closed⟩ := takes_append_iff.mp behind
      have other : Sees (· ≠ Keyword.publicWord.token) ending ts := by
        cases phrase <;> exact takes.sees (by simp [Keyword.token])
      exact ⟨⟨⟩, ts, ⟨t, rfl, rfl⟩, false, ts, .inr ⟨rfl, rfl, other⟩, path, _,
        ⟨⟨_, _, takes, phrase, decoded⟩, closed.sees rfl⟩, ⟨⟩, rest, ⟨_, closed⟩, rfl, rfl⟩
    | shared phrase decoded =>
      obtain ⟨_, behind⟩ := takes_cons_cons_iff.mp takes
      obtain ⟨_, publicWord, behind⟩ := takes_head_iff.mp behind
      obtain ⟨_, takes, closed⟩ := takes_append_iff.mp behind
      exact ⟨⟨⟩, ts, ⟨t, rfl, rfl⟩, true, _, .inl ⟨rfl, _, publicWord⟩, path, _,
        ⟨⟨_, _, takes, phrase, decoded⟩, closed.sees rfl⟩, ⟨⟩, rest, ⟨_, closed⟩, rfl, rfl⟩

/-- A statement that is not empty and has no place. -/
private def IsFilePart (budget : Nat) (scope : Scope) (ws : List Word) (s : FileStatement) : Prop :=
  s ≠ .empty ∧ s.placeless = s ∧ IsFileStatement scope ws s ∧ s.Fits budget

private theorem isFileStatement_iff {ws : List Word} {s : FileStatement} :
    IsStatement .empty (IsFilePart budget scope) ws s ↔
      IsFileStatement scope ws s ∧ s.placeless = s ∧ s.Fits budget := by
  constructor
  · rintro (⟨rfl, d, rfl⟩ | ⟨_, place, phrase, fits⟩)
    · exact ⟨.empty, rfl, by simp⟩
    · exact ⟨phrase, place, fits⟩
  · rintro ⟨phrase, place, fits⟩
    by_cases empty : s = .empty
    · subst empty
      cases phrase
      exact .inl ⟨rfl, _, rfl⟩
    · exact .inr ⟨empty, place, phrase, fits⟩

/-- What ends the statements of a file, or those in front of its package. -/
private def StopsFile (t : Token) : Prop :=
  t = .eof ∨ t = Keyword.packageWord.token

/-- The word that each kind of statement begins with. -/
private theorem exists_cons_of_isFileStatement {ws : List Word} {s : FileStatement}
    (nonempty : s ≠ .empty) (phrase : IsFileStatement scope ws s) :
    ∃ w ws' k, ws = w :: ws' ∧ w.token = Keyword.token k ∧ k ≠ .packageWord ∧ k ≠ .syntaxWord := by
  cases phrase with
  | empty => exact absurd rfl nonempty
  | imported phrase => cases phrase <;> exact ⟨_, _, _, rfl, rfl, by simp⟩
  | option phrase => cases phrase; exact ⟨_, _, _, rfl, rfl, by simp⟩
  | message phrase => cases phrase; exact ⟨_, _, _, rfl, rfl, by simp⟩
  | enumType phrase => cases phrase; exact ⟨_, _, _, rfl, rfl, by simp⟩
  | service phrase => cases phrase; exact ⟨_, _, _, rfl, rfl, by simp⟩
  | extend phrase => cases phrase; exact ⟨_, _, _, rfl, rfl, by simp⟩

section Parts

variable {t : Located} (proper : ending.IsProper)

include proper

/-- What is read as a statement of a file is one with a place. -/
private theorem exists_isFilePart_of_reads {o : Option FileStatement} (go : ¬ StopsFile t.token)
    (skip : t.token ≠ .mark .semicolon)
    (h : Reads (fileStatement budget scope) ending (t :: ts) o rest) :
    ∃ s, o = some s ∧ ∃ ws, Takes (t :: ts) ws rest ∧ IsFilePart budget scope ws s.placeless := by
  have more : t.token ≠ .eof := fun atEnd => go (.inl atEnd)
  rw [fileStatement, reads_peek_bind_iff, if_neg more, if_neg skip] at h
  split at h
  next isPackage => exact absurd (.inr (Token.keyword?_eq_some_iff.mp isPackage)) go
  next isImport =>
    obtain ⟨s, mid, reads, h⟩ := reads_bind_iff.mp h
    obtain ⟨rfl, rfl⟩ := reads_pure_iff.mp h
    obtain ⟨isPublic, path, rfl, ws, takes, phrase⟩ :=
      (reads_importStatement_iff proper (Token.keyword?_eq_some_iff.mp isImport)).mp reads
    exact ⟨_, rfl, ws, takes, by simp [FileStatement.placeless], rfl, .imported phrase,
      by simp [FileStatement.placeless]⟩
  next isOption =>
    obtain ⟨s, rfl, ws, takes, phrase, depth⟩ :=
      (reads_optionWord_iff proper (Token.keyword?_eq_some_iff.mp isOption)).mp h
    exact ⟨_, rfl, ws, takes, by simp [FileStatement.placeless], rfl, .option phrase,
      by simpa [FileStatement.placeless] using depth⟩
  next =>
    exact exists_statement_of_reads (reads_message_iff proper).mp
      (fun m => ⟨by simp [FileStatement.placeless], rfl, .message m.1,
        by simpa [FileStatement.placeless, TypeDecl.depth] using m.2⟩) h
  next =>
    exact exists_statement_of_reads (reads_enumType_iff proper).mp
      (fun e => ⟨by simp [FileStatement.placeless], rfl, .enumType e.1,
        by simpa [FileStatement.placeless, TypeDecl.depth] using e.2⟩) h
  next =>
    exact exists_statement_of_reads (reads_extendBlock_iff proper).mp
      (fun e => ⟨by simp [FileStatement.placeless], rfl, .extend e.1,
        by simpa [FileStatement.placeless] using e.2⟩) h
  next =>
    exact exists_statement_of_reads (reads_service_iff proper).mp
      (fun s => ⟨by simp [FileStatement.placeless], rfl, .service s.1,
        by simpa [FileStatement.placeless] using s.2⟩) h
  next => exact absurd h not_reads_unexpected

/-- The first word of a statement decides which reader is taken, and that one reads it. -/
private theorem exists_reads_fileStatement {ws : List Word} {s : FileStatement}
    (takes : Takes (t :: ts) ws rest) (part : IsFilePart budget scope ws s) :
    ∃ placed, Reads (fileStatement budget scope) ending (t :: ts) (some placed) rest ∧
      placed.placeless = s := by
  obtain ⟨nonempty, place, phrase, fits⟩ := part
  simp only [fileStatement, reads_peek_bind_iff]
  cases phrase with
  | empty => exact absurd rfl nonempty
  | imported phrase =>
    have word : t.token = Keyword.importWord.token := by
      cases phrase <;> exact token_of_takes takes
    have reads := (reads_importStatement_iff proper word).mpr ⟨_, _, rfl, ws, takes, phrase⟩
    simp only [word, Keyword.token, Token.keyword?, Keyword.ofSpelling?_spelling]
    exact ⟨_, reads_statement_of reads, rfl⟩
  | option phrase =>
    have word := optionWord_of_takes takes phrase
    simp only [word, Keyword.token, Token.keyword?, Keyword.ofSpelling?_spelling]
    exact ⟨_, (reads_optionWord_iff proper word).mpr
      ⟨_, rfl, ws, takes, phrase, by simpa using fits⟩, rfl⟩
  | message phrase =>
    have reads := (reads_message_iff proper).mpr
      ⟨ws, takes, phrase, by simpa [TypeDecl.depth] using fits⟩
    cases place
    simp only [messageWord_of_takes takes phrase, Keyword.token, Token.keyword?,
      Keyword.ofSpelling?_spelling]
    exact ⟨_, reads_statement_of reads, rfl⟩
  | enumType phrase =>
    have reads := (reads_enumType_iff proper).mpr
      ⟨ws, takes, phrase, by simpa [TypeDecl.depth] using fits⟩
    cases place
    simp only [enumWord_of_takes takes phrase, Keyword.token, Token.keyword?,
      Keyword.ofSpelling?_spelling]
    exact ⟨_, reads_statement_of reads, rfl⟩
  | extend phrase =>
    have reads := (reads_extendBlock_iff proper).mpr ⟨ws, takes, phrase, by simpa using fits⟩
    simp only [extendWord_of_takes takes phrase, Keyword.token, Token.keyword?,
      Keyword.ofSpelling?_spelling]
    exact ⟨_, reads_statement_of reads, rfl⟩
  | service phrase =>
    have reads := (reads_service_iff proper).mpr ⟨ws, takes, phrase, by simpa using fits⟩
    cases place
    simp only [serviceWord_of_takes takes phrase, Keyword.token, Token.keyword?,
      Keyword.ofSpelling?_spelling]
    exact ⟨_, reads_statement_of reads, rfl⟩

private theorem reads_fileStatements_iff {statements : List FileStatement} :
    (∃ placed, Reads (many (fileStatement budget scope)) ending ts placed rest ∧
        placed.map FileStatement.placeless = statements) ↔
      (∃ ws, Takes ts ws rest ∧ IsSequence (IsFileStatement scope) ws statements ∧
        ∀ s ∈ statements, s.placeless = s ∧ s.Fits budget) ∧ Sees StopsFile ending rest := by
  simp only [← IsSequence.and_iff, ← isFileStatement_iff, ← reads_many_map_iff, fileStatement,
    map_bind]
  refine IsStatementReader.reads_many_iff
    ⟨?_, ?_, ?_, ?_, by simp [StopsFile, Keyword.token], ?_⟩ proper
  · rintro t (atEnd | found)
    · simp [atEnd]
    · simp only [found, Keyword.token, Token.keyword?, Keyword.ofSpelling?_spelling, reduceCtorEq,
        if_false, map_pure]
      rfl
  · intro t skips
    simp only [skips, reduceCtorEq, if_false, if_true, map_bind, map_pure]
    rfl
  · intro t ts rest o go skip
    simp only [reads_map_iff]
    constructor
    · rintro ⟨v, reads, rfl⟩
      obtain ⟨s, rfl, part⟩ :=
        exists_isFilePart_of_reads proper go skip (reads_peek_bind_iff.mpr reads)
      exact ⟨s.placeless, rfl, part⟩
    · rintro ⟨s, rfl, ws, takes, part⟩
      obtain ⟨placed, reads, same⟩ := exists_reads_fileStatement proper takes part
      exact ⟨some placed, reads_peek_bind_iff.mp reads, congrArg some same⟩
  · intro t o rest atEnd stop
    exact absurd (.inl rfl) stop
  · rintro ws s ⟨nonempty, _, phrase, _⟩
    obtain ⟨w, ws', k, rfl, found, other, _⟩ := exists_cons_of_isFileStatement nonempty phrase
    refine ⟨w, ws', rfl, ?_, by simp [found, Keyword.token]⟩
    rw [StopsFile, found]
    rintro (h | h)
    · cases h
    · exact other (Keyword.token_injective h)

end Parts

/-! ### Version and package -/

private theorem reads_versionStatement_iff {version : Option String} (proper : ending.IsProper) :
    Reads versionStatement? ending ts version rest ↔
      (∃ ws, Takes ts ws rest ∧ IsVersion ws version) ∧
        (version = none → Sees (· ≠ Keyword.syntaxWord.token) ending ts) := by
  simp only [versionStatement?, reads_ifKeyword_iff proper, reads_bind_iff, reads_expect_iff proper,
    reads_peek_iff, reads_textLiteral_iff proper, reads_accept_iff, reads_pure_iff]
  constructor
  · rintro (⟨d, _, first, _, _, ⟨d', equals⟩, t, _, ⟨_, rfl⟩, version, _,
      ⟨⟨ws, bytes, takes, phrase, decoded⟩, _⟩, _, _, ⟨d'', closed⟩, _, _, ⟨known, rfl⟩, rfl, rfl⟩ |
      ⟨other, rfl, rfl⟩)
    · obtain rfl := of_decide_eq_true (demand_eq_ok_iff.mp known)
      exact ⟨⟨_, first.trans (equals.trans (takes.trans closed)), .present phrase decoded⟩, by simp⟩
    · exact ⟨⟨[], takes_nil_iff.mpr rfl, .absent⟩, fun _ => other⟩
  · rintro ⟨⟨ws, takes, phrase⟩, other⟩
    cases phrase with
    | absent => exact .inr ⟨other rfl, rfl, takes_nil_iff.mp takes⟩
    | present phrase decoded =>
      obtain ⟨_, first, takes⟩ := takes_head_iff.mp takes
      obtain ⟨mid, equals, takes⟩ := takes_head_iff.mp takes
      obtain ⟨_, takes, closed⟩ := takes_append_iff.mp takes
      obtain ⟨t, seen, _⟩ : Sees (fun _ => True) ending mid := by
        cases phrase <;> exact takes.sees trivial
      exact .inl ⟨_, _, first, ⟨⟩, _, ⟨_, equals⟩, t, _, ⟨seen, rfl⟩, _, _,
        ⟨⟨_, _, takes, phrase, decoded⟩, closed.sees rfl⟩, ⟨⟩, rest, ⟨_, closed⟩, ⟨⟩, rest,
        ⟨rfl, rfl⟩, rfl, rfl⟩

/-- The words of a package declaration. -/
def IsPackage (ws : List Word) (package : String) : Prop :=
  ∃ d d' d'', ws = [⟨Keyword.packageWord.token, d⟩, ⟨.ident package, d'⟩, ⟨.mark .semicolon, d''⟩]

theorem reads_packageStatement_iff {o : Option (Position × String)}
    (proper : ending.IsProper) :
    Reads packageStatement? ending ts o rest ↔
      (o = none ∧ ts = rest ∧ Sees (· ≠ Keyword.packageWord.token) ending ts) ∨
        ∃ t package, o = some (t.position, package) ∧ front? ending ts = some t ∧
          ∃ ws, Takes ts ws rest ∧ IsPackage ws package := by
  rw [packageStatement?, reads_bind_iff]
  simp only [reads_peek_iff, reads_ifKeyword_iff proper, reads_bind_iff, reads_ident_iff proper,
    reads_expect_iff proper, reads_pure_iff]
  constructor
  · rintro ⟨t, _, ⟨seen, rfl⟩, ⟨d, _, first, package, _, ⟨d', named⟩, _, _, ⟨d'', closed⟩, rfl, rfl⟩ |
      ⟨other, rfl, rfl⟩⟩
    · exact .inr ⟨t, package, rfl, seen, _, first.trans (named.trans closed), d, d', d'', rfl⟩
    · exact .inl ⟨rfl, rfl, other⟩
  · rintro (⟨rfl, rfl, t, seen, other⟩ | ⟨t, package, rfl, seen, _, takes, d, d', d'', rfl⟩)
    · exact ⟨t, ts, ⟨seen, rfl⟩, .inr ⟨⟨t, seen, other⟩, rfl, rfl⟩⟩
    · obtain ⟨_, first, takes⟩ := takes_head_iff.mp takes
      obtain ⟨_, named, closed⟩ := takes_head_iff.mp takes
      exact ⟨t, ts, ⟨seen, rfl⟩, .inl ⟨d, _, first, package, _, ⟨d', named⟩, ⟨⟩, rest, ⟨d'', closed⟩,
        rfl, rfl⟩⟩

/-- The statements behind a package declaration reach to the end of the text. -/
private theorem reads_statementsOf_iff {package : String} {statements : List FileStatement}
    (proper : ending.IsProper) :
    (∃ placed, Reads (statementsOf budget package) ending ts placed rest ∧
        placed.map FileStatement.placeless = statements) ↔
      (∃ ws, Takes ts ws rest ∧ IsSequence (IsFileStatement [package]) ws statements ∧
        ∀ s ∈ statements, s.placeless = s ∧ s.Fits budget) ∧ Sees (· = .eof) ending rest := by
  -- A second package would stop the statements too, but the reader fails there; only the end is
  -- left.
  have ends : Sees StopsFile ending rest ∧ Sees (· ≠ Keyword.packageWord.token) ending rest ↔
      Sees (· = .eof) ending rest := by
    constructor
    · rintro ⟨⟨t, seen, atEnd | found⟩, t', seen', other⟩
      · exact ⟨t, seen, atEnd⟩
      · cases seen.symm.trans seen'
        exact absurd found other
    · rintro ⟨t, seen, atEnd⟩
      exact ⟨⟨t, seen, .inl atEnd⟩, t, seen, by simp [atEnd, Keyword.token]⟩
  rw [← ends, ← and_assoc, ← reads_fileStatements_iff proper]
  simp only [statementsOf]
  constructor
  · rintro ⟨placed, h, rfl⟩
    obtain ⟨placed', mid, reads, h⟩ := reads_bind_iff.mp h
    obtain ⟨o, mid', package', h⟩ := reads_bind_iff.mp h
    rcases (reads_packageStatement_iff proper).mp package' with
      ⟨rfl, rfl, other⟩ | ⟨t, package', rfl, _⟩
    · obtain ⟨rfl, rfl⟩ := reads_pure_iff.mp h
      exact ⟨⟨placed', reads, rfl⟩, other⟩
    · simp at h
  · rintro ⟨⟨placed, reads, rfl⟩, other⟩
    exact ⟨placed, reads_bind_iff.mpr ⟨placed, rest, reads, reads_bind_iff.mpr ⟨none, rest,
      (reads_packageStatement_iff proper).mpr (.inl ⟨rfl, rfl, other⟩),
      reads_pure_iff.mpr ⟨rfl, rfl⟩⟩⟩, rfl⟩

/-! ### Files -/

private theorem isFileStatement_placeless {ws : List Word} {s : FileStatement}
    (h : IsFileStatement scope ws s) : IsFileStatement scope ws s.placeless := by
  cases h with
  | empty => exact .empty
  | imported phrase => exact .imported phrase
  | option phrase => exact .option phrase
  | message phrase => exact .message phrase
  | enumType phrase => exact .enumType phrase
  | service phrase => exact .service phrase
  | extend phrase => exact .extend phrase

private theorem isSequence_placeless {ws : List Word} {statements : List FileStatement}
    (h : IsSequence (IsFileStatement scope) ws statements) :
    IsSequence (IsFileStatement scope) ws (statements.map FileStatement.placeless) := by
  induction h with
  | nil => exact .nil
  | cons first _ ih => exact .cons (isFileStatement_placeless first) ih

@[simp] private theorem FileStatement.placeless_placeless (s : FileStatement) :
    s.placeless.placeless = s.placeless := by
  cases s <;> rfl

@[simp] private theorem FileStatement.fits_placeless_iff {s : FileStatement} :
    s.placeless.Fits budget ↔ s.Fits budget := by
  cases s <;> simp [FileStatement.placeless]

/-- The statements of a file, without their places. -/
private def FileText.placeless (text : FileText) : FileText where
  version := text.version
  before := text.before.map FileStatement.placeless
  package := text.package.map fun package => (package.1, package.2.map FileStatement.placeless)

private theorem filterMap_placeless {α : Type} {pick : FileStatement → Option α}
    (same : ∀ s, pick s.placeless = pick s) (statements : List FileStatement) :
    (statements.map FileStatement.placeless).filterMap pick = statements.filterMap pick := by
  rw [List.filterMap_map]
  exact congrArg (List.filterMap · statements) (funext same)

private theorem FileText.statements_placeless (text : FileText) :
    text.placeless.statements = text.statements.map FileStatement.placeless := by
  obtain ⟨version, before, package⟩ := text
  cases package <;> simp [FileText.statements, FileText.placeless]

/-- What is made of the statements of a file does not depend on their places. -/
private theorem FileText.body_placeless (text : FileText) : text.placeless.body = text.body := by
  have imports (isPublic : Bool) (s : FileStatement) :
      FileStatement.import? isPublic s.placeless = FileStatement.import? isPublic s := by
    cases s <;> rfl
  have types (s : FileStatement) : s.placeless.type? = s.type? := by cases s <;> rfl
  have services (s : FileStatement) : s.placeless.service? = s.service? := by cases s <;> rfl
  have extendBlocks (s : FileStatement) : s.placeless.extend? = s.extend? := by cases s <;> rfl
  have options (s : FileStatement) : s.placeless.option? = s.option? := by cases s <;> rfl
  have counts {α : Type} {pick : FileStatement → Option α} (same : ∀ s, pick s.placeless = pick s) :
      text.placeless.countBefore pick = text.countBefore pick := by
    simp [FileText.countBefore, FileText.placeless, filterMap_placeless same]
  simp only [FileText.body, FileText.statements_placeless, filterMap_placeless (imports _),
    filterMap_placeless types, filterMap_placeless services, filterMap_placeless extendBlocks,
    filterMap_placeless options, counts types, counts services]
  obtain ⟨version, before, package⟩ := text
  cases package <;> simp [FileText.placeless]

/-- Whatever is read as a file is one. -/
private theorem exists_isFile_of_reads {text : FileText} (proper : ending.IsProper)
    (h : Reads (fileText budget) ending ts text rest) :
    (∃ ws, Takes ts ws rest ∧ IsFile ws text.placeless ∧
      ∀ s ∈ text.statements, s.Fits budget) ∧ Sees (· = .eof) ending rest := by
  obtain ⟨version, _, readsVersion, h⟩ := reads_bind_iff.mp h
  obtain ⟨before, mid, readsBefore, h⟩ := reads_bind_iff.mp h
  obtain ⟨o, mid', readsPackage, h⟩ := reads_bind_iff.mp h
  obtain ⟨⟨vs, takesVersion, isVersion⟩, _⟩ := (reads_versionStatement_iff proper).mp readsVersion
  obtain ⟨⟨ws, takes, row, fits⟩, stops⟩ :=
    (reads_fileStatements_iff proper).mp ⟨before, readsBefore, rfl⟩
  simp only [List.forall_mem_map, FileStatement.placeless_placeless,
    FileStatement.fits_placeless_iff, true_and] at fits
  -- Statements stop at a package or at the end; which of these it was is told by whether a package
  -- is read.
  rcases (reads_packageStatement_iff proper).mp readsPackage with
    ⟨rfl, rfl, t, seen, other⟩ | ⟨t, package, rfl, _, ps, takesPackage, d, d', d'', rfl⟩
  · obtain ⟨rfl, rfl⟩ := reads_pure_iff.mp h
    obtain ⟨_, seen', atEnd | found⟩ := stops
    · exact ⟨⟨_, takesVersion.trans takes, .withoutPackage isVersion row,
        by simpa [FileText.statements] using fits⟩, _, seen', atEnd⟩
    · cases seen.symm.trans seen'
      exact absurd found other
  · simp only [reads_bind_iff, reads_pure_iff] at h
    obtain ⟨behind, _, readsBehind, rfl, rfl⟩ := h
    obtain ⟨⟨ws', takes', row', fits'⟩, atEnd⟩ :=
      (reads_statementsOf_iff proper).mp ⟨behind, readsBehind, rfl⟩
    simp only [List.forall_mem_map, FileStatement.placeless_placeless,
      FileStatement.fits_placeless_iff, true_and] at fits'
    refine ⟨⟨_, takesVersion.trans (takes.trans (takesPackage.trans takes')),
      .withPackage isVersion row row', ?_⟩, atEnd⟩
    intro s member
    rcases List.mem_append.mp member with first | second
    · exact fits s first
    · exact fits' s second

/-- No file statement begins like a version. -/
private theorem sees_noVersion {ws : List Word} {statements : List FileStatement}
    (takes : Takes ts ws rest) (row : IsSequence (IsFileStatement scope) ws statements)
    (stops : Sees StopsFile ending rest) :
    Sees (· ≠ Keyword.syntaxWord.token) ending ts := by
  cases row with
  | nil =>
    obtain rfl := takes_nil_iff.mp takes
    refine stops.mono ?_
    rintro t (rfl | rfl)
    · simp [Keyword.token]
    · exact fun h => by cases Keyword.token_injective h
  | @cons _ _ s _ phrase _ =>
    by_cases empty : s = .empty
    · subst empty
      cases phrase
      exact takes.sees (by simp [Keyword.token])
    · obtain ⟨w, ws', k, rfl, found, _, other⟩ := exists_cons_of_isFileStatement empty phrase
      exact takes.sees fun h => other (Keyword.token_injective (found.symm.trans h))

/-- The version and the statements in front of the package are read, or in front of the end. -/
private theorem exists_reads_front {mid : List Located} {vs ws : List Word}
    {version : Option String} {before : List FileStatement} (proper : ending.IsProper)
    (takesVersion : Takes ts vs mid) (isVersion : IsVersion vs version)
    (takes : Takes mid ws rest) (row : IsSequence (IsFileStatement []) ws before)
    (fits : ∀ s ∈ before, s.Fits budget) (stops : Sees StopsFile ending rest) :
    Reads versionStatement? ending ts version mid ∧
      ∃ placed, Reads (many (fileStatement budget [])) ending mid placed rest ∧
        placed.map FileStatement.placeless = before.map FileStatement.placeless := by
  constructor
  · refine (reads_versionStatement_iff proper).mpr ⟨⟨vs, takesVersion, isVersion⟩, ?_⟩
    rintro rfl
    cases isVersion
    exact takes_nil_iff.mp takesVersion ▸ sees_noVersion takes row stops
  · refine (reads_fileStatements_iff proper).mpr ⟨⟨ws, takes, isSequence_placeless row, ?_⟩, stops⟩
    simpa using fits

/-- A file of the grammar is read, with the places of its statements. -/
private theorem exists_reads_fileText {ws : List Word} {text : FileText} (proper : ending.IsProper)
    (takes : Takes ts ws rest) (phrase : IsFile ws text) (fits : ∀ s ∈ text.statements, s.Fits budget)
    (atEnd : Sees (· = .eof) ending rest) :
    ∃ placed, Reads (fileText budget) ending ts placed rest ∧
      placed.placeless = text.placeless := by
  cases phrase with
  | @withoutPackage version before vs ws isVersion row =>
    obtain ⟨mid, takesVersion, takes⟩ := takes_append_iff.mp takes
    obtain ⟨readsVersion, placed, readsBefore, same⟩ := exists_reads_front proper takesVersion
      isVersion takes row (by simpa [FileText.statements] using fits) (atEnd.mono fun _ => .inl)
    have none : Reads packageStatement? ending rest none rest :=
      (reads_packageStatement_iff proper).mpr (.inl ⟨rfl, rfl,
        atEnd.mono fun _ h => by simp [h, Keyword.token]⟩)
    refine ⟨⟨version, placed, Option.none⟩, ?_, by simp [FileText.placeless, same]⟩
    exact reads_bind_iff.mpr ⟨version, mid, readsVersion, reads_bind_iff.mpr ⟨placed, rest,
      readsBefore, reads_bind_iff.mpr ⟨_, rest, none, reads_pure_iff.mpr ⟨rfl, rfl⟩⟩⟩⟩
  | @withPackage version before behind package d d' d'' vs ws ws' isVersion row row' =>
    obtain ⟨mid, takesVersion, takes⟩ := takes_append_iff.mp takes
    obtain ⟨mid', takes, takesPackage⟩ := takes_append_iff.mp takes
    have stops : Sees StopsFile ending mid' := takesPackage.sees (.inr rfl)
    obtain ⟨t, seen, word⟩ := stops
    obtain ⟨readsVersion, placed, readsBefore, same⟩ := exists_reads_front proper takesVersion
      isVersion takes row (fun s member => fits s (List.mem_append_left _ member))
      ⟨t, seen, word⟩
    obtain ⟨mid'', takesPackage, takes'⟩ := takes_append_iff.mp
      (show Takes mid' ([⟨Keyword.packageWord.token, d⟩, ⟨.ident package, d'⟩,
        ⟨.mark .semicolon, d''⟩] ++ ws') rest from takesPackage)
    have some : Reads packageStatement? ending mid' (some (t.position, package)) mid'' :=
      (reads_packageStatement_iff proper).mpr (.inr ⟨t, package, rfl, seen, _, takesPackage, d, d',
        d'', rfl⟩)
    have fits' : ∀ s ∈ behind.map FileStatement.placeless, s.placeless = s ∧ s.Fits budget := by
      simpa using fun s member => fits s (List.mem_append_right _ member)
    obtain ⟨placed', readsBehind, same'⟩ :=
      (reads_statementsOf_iff proper).mpr ⟨⟨ws', takes', isSequence_placeless row', fits'⟩, atEnd⟩
    refine ⟨⟨version, placed, Option.some (package, placed')⟩, ?_, by
      simp [FileText.placeless, same, same']⟩
    exact reads_bind_iff.mpr ⟨version, mid, readsVersion, reads_bind_iff.mpr ⟨placed, mid',
      readsBefore, reads_bind_iff.mpr ⟨_, mid'', some, reads_bind_iff.mpr ⟨placed', rest,
        readsBehind, reads_pure_iff.mpr ⟨rfl, rfl⟩⟩⟩⟩⟩

/-- Statements fit a budget that is large enough. -/
private theorem exists_fits (statements : List FileStatement) :
    ∃ budget, ∀ s ∈ statements, s.Fits budget := by
  induction statements with
  | nil => exact ⟨0, by simp⟩
  | cons s statements ih =>
    obtain ⟨budget, fits⟩ := ih
    obtain ⟨own, fitsOwn⟩ : ∃ own, s.Fits own := by
      cases s with
      | empty => exact ⟨0, by simp⟩
      | imported => exact ⟨0, by simp⟩
      | option s => exact ⟨s.depth, by simp⟩
      | type _ t => exact ⟨t.depth, by simp⟩
      | service _ s => exact ⟨s.depth, by simp⟩
      | extend e => exact ⟨e.depth, by simp⟩
    exact ⟨max own budget, List.forall_mem_cons.mpr ⟨fitsOwn.mono (Nat.le_max_left _ _),
      fun s member => (fits s member).mono (Nat.le_max_right _ _)⟩⟩

/-- What is made of a file is told by its words: the reader takes them in one way only. -/
theorem body_eq_of_isFile {ws : List Word} {text text' : FileText} (phrase : IsFile ws text)
    (phrase' : IsFile ws text') : text.body = text'.body := by
  obtain ⟨budget, fits⟩ := exists_fits (text.statements ++ text'.statements)
  have takes : Takes (ws.map fun w => ⟨w.token, .start, some w.doc⟩) ws [] :=
    ⟨_, (List.append_nil _).symm, by simp [Located.word, docOf, Function.comp_def]⟩
  have proper : (Ending.finished ⟨.eof, .start, none⟩).IsProper := rfl
  obtain ⟨placed, reads, same⟩ := exists_reads_fileText proper takes phrase
    (fun s member => fits s (List.mem_append_left _ member)) ⟨_, rfl, rfl⟩
  obtain ⟨placed', reads', same'⟩ := exists_reads_fileText proper takes phrase'
    (fun s member => fits s (List.mem_append_right _ member)) ⟨_, rfl, rfl⟩
  obtain ⟨rfl, _⟩ := reads.unique reads'
  rw [← text.body_placeless, ← same, same', text'.body_placeless]

/-- A file that obeys the rules fits a budget if all its statements do. -/
private theorem depth_le_iff_fits {name : String} {text : FileText} {f : SchemaFile}
    (made : SchemaFile.make name text.body = .ok f) :
    f.depth ≤ budget ↔ ∀ s ∈ text.statements, s.Fits budget := by
  obtain ⟨_, rfl⟩ := SchemaFile.make_eq_ok_iff.mp made
  simp only [SchemaFile.depth_le_iff, FileText.body, List.forall_mem_filterMap,
    FileStatement.Fits, forall_and]

/-- The reader of files accepts the files of the grammar that obey the rules and whose depth is
within its budget, up to the end of the text. -/
theorem reads_file_iff {name : String} {f : SchemaFile} (proper : ending.IsProper) :
    Reads (file budget name) ending ts f rest ↔
      (∃ ws text, Takes ts ws rest ∧ IsFile ws text ∧ SchemaFile.make name text.body = .ok f ∧
        f.depth ≤ budget) ∧ Sees (· = .eof) ending rest := by
  constructor
  · intro h
    obtain ⟨text, mid, reads, h⟩ := reads_bind_iff.mp h
    obtain ⟨⟨ws, takes, phrase, fits⟩, atEnd⟩ := exists_isFile_of_reads proper reads
    split at h
    next f' made =>
      obtain ⟨rfl, rfl⟩ := reads_pure_iff.mp h
      exact ⟨⟨ws, text.placeless, takes, phrase, text.body_placeless ▸ made,
        (depth_le_iff_fits made).mpr fits⟩, atEnd⟩
    next => simp at h
  · rintro ⟨⟨ws, text, takes, phrase, made, depth⟩, atEnd⟩
    obtain ⟨placed, reads, same⟩ :=
      exists_reads_fileText proper takes phrase ((depth_le_iff_fits made).mp depth) atEnd
    refine reads_bind_iff.mpr ⟨placed, rest, reads, ?_⟩
    -- The places that were read get lost in what is made of the file.
    rw [← placed.body_placeless, same, text.body_placeless, made]
    exact reads_pure_iff.mpr ⟨rfl, rfl⟩

end ProtoSchema.Reading
