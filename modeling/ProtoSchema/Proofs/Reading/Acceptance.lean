import ProtoSchema.Proofs.Reading.Rejection

/-!
# What is accepted is judged

The grammar with verdicts covers the grammar: whatever is read without a fault is a phrase with
verdicts that says the same and in which no declaration breaks a rule. So a text is accepted exactly
if it is made of the right phrases, no declaration in it breaks a rule, and the file as a whole does
not break one either.
-/

namespace ProtoSchema

open Reader Grammar

namespace Grammar

variable {α β γ : Type}

namespace Judged

variable {j : Judged α} {k : Judged β} {v : α} {w : β}

/-- This is said, and no declaration breaks a rule. -/
def Accepts (j : Judged α) (v : α) : Prop :=
  j.value = some v ∧ ∀ verdict ∈ j.verdicts, verdict.broken = none

theorem accepts_plain (v : α) : (plain v).Accepts v :=
  ⟨rfl, by simp [plain]⟩

theorem Accepts.map (h : j.Accepts v) (g : α → β) : (j.map g).Accepts (g v) := by
  obtain ⟨said, sound⟩ := h
  exact ⟨by rw [Judged.map, said]; rfl, sound⟩

theorem Accepts.map₂ (h : j.Accepts v) (h' : k.Accepts w) (g : α → β → γ) :
    (map₂ g j k).Accepts (g v w) := by
  obtain ⟨said, sound⟩ := h
  obtain ⟨said', sound'⟩ := h'
  exact ⟨by rw [Judged.map₂, said, said']; rfl, List.forall_mem_append.mpr ⟨sound, sound'⟩⟩

/-- A declaration that is made breaks no rule. -/
theorem Accepts.declare {make : α → Except Violation β} (h : j.Accepts v) (first last : Located)
    (made : make v = .ok w) : (j.declare first last make).Accepts w := by
  obtain ⟨said, sound⟩ := h
  unfold Judged.declare
  rw [said, Option.map_some, made]
  exact ⟨rfl, List.forall_mem_append.mpr ⟨sound, by simp⟩⟩

end Judged

/-- There is a phrase that says this, in which no declaration breaks a rule. -/
def Admits (P : Phrase α) (ts : List Located) (v : α) (rest : List Located) : Prop :=
  ∃ j, P ts j rest ∧ j.Accepts v

theorem Admits.map {P : Phrase α} {Q : Phrase β} {g : α → β} {ts rest : List Located} {v : α}
    (h : Admits P ts v rest) (phrase : ∀ {j}, P ts j rest → Q ts (j.map g) rest) :
    Admits Q ts (g v) rest := by
  obtain ⟨j, judged, accepts⟩ := h
  exact ⟨j.map g, phrase judged, accepts.map g⟩

end Grammar

namespace Reader

variable {α β : Type} {ending : Ending} {ts rest : List Located}

/-! ### Rows -/

/-- A row of phrases is a row of phrases with verdicts. -/
theorem admits_row {P : List Word → α → Prop} {Q : Phrase α} {ws : List Word} {vs : List α}
    (each : ∀ {ts ws v rest}, Takes ts ws rest → P ws v → Admits Q ts v rest)
    (takes : Takes ts ws rest) (row : IsSequence P ws vs) : Admits (JudgesRow Q) ts vs rest := by
  induction row generalizing ts with
  | nil =>
    obtain rfl := takes_nil_iff.mp takes
    exact ⟨_, .nil, Judged.accepts_plain []⟩
  | cons phrase _ ih =>
    obtain ⟨mid, takes, behind⟩ := takes_append_iff.mp takes
    obtain ⟨j, judged, accepts⟩ := each takes phrase
    obtain ⟨js, row, accepts'⟩ := ih behind
    exact ⟨_, .cons judged row, accepts.map₂ accepts' List.cons⟩

/-- What is read as long as there is more of it is a row of phrases. A phrase may only be one if
enough tokens stand behind it. -/
theorem admits_row_of_many {item : Reader (Option α)} {Q : Phrase α} {vs : List α} {n : Nat}
    (admits : ∀ {ts o rest}, Reads item ending ts o rest → (o = none ∧ ts = rest) ∨
      ∃ v, o = some v ∧ (n ≤ rest.length → Admits Q ts v rest))
    (fills : ∀ {ts rest j}, Q ts j rest → j.Fills ts rest)
    (h : Reads (many item) ending ts vs rest) (enough : n ≤ rest.length) :
    rest.length ≤ ts.length ∧ Admits (JudgesRow Q) ts vs rest := by
  have each {ts : List Located} {v : α} {rest : List Located}
      (reads : Reads item ending ts (some v) rest) (enough : n ≤ rest.length) :
      Admits Q ts v rest := by
    rcases admits reads with ⟨none, _⟩ | ⟨_, same, admits⟩
    · cases none
    · cases same
      exact admits enough
  change many item ending ts = .ok (vs, rest) at h
  fun_induction many item ending ts generalizing vs with
  | case1 => cases h
  | case2 ts mid found =>
    cases h
    rcases admits found with ⟨_, rfl⟩ | ⟨_, some, _⟩
    · exact ⟨Nat.le_refl _, _, .nil, Judged.accepts_plain []⟩
    · cases some
  | case3 => cases h
  | case4 ts v mid found progress vs after more ih =>
    cases h
    -- What stands behind the row stands behind each of its phrases.
    obtain ⟨shorter, js, row, accepts'⟩ := ih more
    obtain ⟨j, judged, accepts⟩ := each found (Nat.le_trans enough shorter)
    exact ⟨by omega, _, .cons judged row, accepts.map₂ accepts' List.cons⟩
  | case5 ts v mid found stuck =>
    -- A phrase takes tokens, so the reader does not get stuck.
    cases h
    obtain ⟨j, judged, _⟩ := each found enough
    exact absurd (fills judged).length_lt stuck

/-- What a statement is made of is admitted as the statement. -/
theorem statement_admits {reader : Reader β} {of : β → α} {P : Phrase β} {Q : Phrase α}
    {o : Option α} {n : Nat}
    (admits : ∀ {v}, Reads reader ending ts v rest → n ≤ rest.length → Admits P ts v rest)
    (phrase : ∀ {j}, P ts j rest → Q ts (j.map of) rest)
    (h : Reads (reader >>= fun v => pure (some (of v))) ending ts o rest) :
    (o = none ∧ ts = rest) ∨ ∃ s, o = some s ∧ (n ≤ rest.length → Admits Q ts s rest) := by
  obtain ⟨v, _, reads, h⟩ := reads_bind_iff.mp h
  obtain ⟨rfl, rfl⟩ := reads_pure_iff.mp h
  exact .inr ⟨of v, rfl, fun enough => (admits reads enough).map phrase⟩

/-- Phrases between commas, where a phrase depends on the token behind it. -/
theorem admits_commaList {P : List Word → α → Prop} {Q : Phrase α} (follow : Token → Prop)
    {t : Located} {ws : List Word} {vs : List α}
    (each : ∀ {ts ws v t rest}, Takes ts ws (t :: rest) → P ws v → follow t.token →
      Admits Q ts v (t :: rest))
    (comma : follow (.mark .comma)) (takes : Takes ts ws (t :: rest)) (list : IsCommaList P ws vs)
    (fits : follow t.token) : Admits (JudgesCommaList Q) ts vs (t :: rest) := by
  induction list generalizing ts with
  | last phrase =>
    obtain ⟨j, judged, accepts⟩ := each takes phrase fits
    exact ⟨_, .intro judged .nil, accepts.map₂ (Judged.accepts_plain []) List.cons⟩
  -- Behind a phrase that is not the last one stands a comma.
  | more phrase _ ih =>
    obtain ⟨_, takes, behind⟩ := takes_append_iff.mp takes
    obtain ⟨separator, mid, rfl, word, behind⟩ := takes_cons_iff.mp behind
    obtain ⟨found, _⟩ := Located.word_eq_iff.mp word
    obtain ⟨j, judged, accepts⟩ := each takes phrase (found ▸ comma)
    obtain ⟨js, judged', accepts'⟩ := ih behind
    cases judged' with
    | intro first row =>
      exact ⟨_, .intro judged (.cons (.intro found first) row), accepts.map₂ accepts' List.cons⟩

/-- A token that is taken for what it is. -/
private theorem exists_of_takes {token : Token} {d : String} (takes : Takes ts [⟨token, d⟩] rest) :
    ∃ t, ts = t :: rest ∧ t.token = token :=
  exists_takes_iff.mp ⟨d, takes⟩

end Reader

namespace Reading

open Reader

variable {ending : Ending} {ts rest : List Located} {budget : Nat} {scope : Scope}

/-! ### Declarations with a number -/

theorem admits_numbered {α : Type} {isName : String → Prop} {start : Located}
    {make : String → Int → List Setting → Except Violation α} {name d d' d'' c : String}
    {number : Int} {options : List Setting} {v : α} {ws : List Word} (named : isName name)
    (takes : Takes ts (⟨.ident name, d⟩ :: ⟨.mark .equals, d'⟩ :: ⟨.int number, d''⟩ ::
      (ws ++ [⟨.mark .semicolon, c⟩])) rest)
    (brackets : IsBrackets ws options) (fits : ∀ s ∈ options, s.depth ≤ budget)
    (made : make name number options = .ok v) :
    Admits (JudgesNumbered budget isName start make) ts v rest := by
  obtain ⟨_, takesName, behind⟩ := takes_head_iff.mp takes
  obtain ⟨_, equals, behind⟩ := takes_head_iff.mp behind
  obtain ⟨_, takesNumber, behind⟩ := takes_head_iff.mp behind
  obtain ⟨_, options, behind⟩ := takes_append_iff.mp behind
  obtain ⟨closed, rfl, closes⟩ := exists_of_takes behind
  have front := takesName.trans (equals.trans takesNumber)
  exact ⟨_, .intro named front brackets fits options closes,
    (Judged.accepts_plain _).declare start closed made⟩

private theorem admits_fieldRest {start : Located} {label : Label} {typeName : String} {f : Field}
    {ws : List Word} (takes : Takes ts ws rest)
    (phrase : IsFieldRest (docOf start) label typeName ws f) (depth : f.depth ≤ budget) :
    Admits (JudgesNumbered budget (isPlainName · = true) start
      fun name tag => Field.make label typeName name tag (docOf start)) ts f rest := by
  cases phrase with
  | intro plain brackets made =>
    exact admits_numbered plain takes brackets ((Field.depth_le_iff made).mp depth) made

theorem admits_field {ws : List Word} {f : Field} (takes : Takes ts ws rest)
    (phrase : IsField ws f) (depth : f.depth ≤ budget) :
    Admits (JudgesField budget) ts f rest := by
  cases phrase with
  | intro isLabel phrase =>
    obtain ⟨start, _, rfl, word, behind⟩ := takes_cons_iff.mp takes
    obtain ⟨found, rfl⟩ := Located.word_eq_iff.mp word
    obtain ⟨_, takesType, behind⟩ := takes_head_iff.mp behind
    obtain ⟨j, numbered, accepts⟩ := admits_fieldRest behind phrase depth
    exact ⟨j, .labelled found isLabel takesType numbered, accepts⟩

theorem admits_mapField {ws : List Word} {f : Field} (takes : Takes ts ws rest)
    (phrase : IsMapField ws f) (depth : f.depth ≤ budget) :
    Admits (JudgesField budget) ts f rest := by
  cases phrase with
  | intro phrase =>
    obtain ⟨start, _, rfl, word, behind⟩ := takes_cons_iff.mp takes
    obtain ⟨found, rfl⟩ := Located.word_eq_iff.mp word
    obtain ⟨_, less, behind⟩ := takes_head_iff.mp behind
    obtain ⟨_, takesKey, behind⟩ := takes_head_iff.mp behind
    obtain ⟨_, comma, behind⟩ := takes_head_iff.mp behind
    obtain ⟨_, takesValue, behind⟩ := takes_head_iff.mp behind
    obtain ⟨_, greater, behind⟩ := takes_head_iff.mp behind
    obtain ⟨j, numbered, accepts⟩ := admits_fieldRest behind phrase depth
    have type := less.trans (takesKey.trans (comma.trans (takesValue.trans greater)))
    exact ⟨j, .map found type numbered, accepts⟩

/-! ### Extensions -/

private theorem admits_range {doc : String} {t : Located} {ws : List Word} {r : ExtensionRange}
    (takes : Takes ts ws (t :: rest)) (phrase : IsRange doc ws r)
    (other : t.token ≠ Keyword.toWord.token) : Admits (JudgesRange doc) ts r (t :: rest) := by
  cases phrase with
  | intro ends made =>
    obtain ⟨start, _, rfl, word, used, rfl, rfl⟩ := takes_cons_iff.mp takes
    obtain ⟨found, _⟩ := Located.word_eq_iff.mp word
    exact ⟨_, .intro found ends other, (Judged.accepts_plain _).declare start _ made⟩

theorem admits_extensions {ws : List Word} {ranges : List ExtensionRange}
    (takes : Takes ts ws rest) (phrase : IsExtensions ws ranges) :
    Admits JudgesExtensions ts ranges rest := by
  cases phrase with
  | intro list =>
    obtain ⟨start, _, rfl, word, behind⟩ := takes_cons_iff.mp takes
    obtain ⟨found, rfl⟩ := Located.word_eq_iff.mp word
    obtain ⟨_, takes, behind⟩ := takes_append_iff.mp behind
    obtain ⟨closed, rfl, closes⟩ := exists_of_takes behind
    obtain ⟨j, judged, accepts⟩ := admits_commaList (· ≠ Keyword.toWord.token) admits_range
      (by simp [Keyword.token]) takes list (by simp [closes, Keyword.token])
    exact ⟨j, .intro found judged closes, accepts⟩

/-! ### Blocks -/

/-- A declaration with statements in braces is admitted if its statements are. -/
theorem admits_block {α β : Type} {k : Keyword} {isName : String → Prop} {P : String → Phrase α}
    {make : Located → String → List α → Except Violation β} {name doc d d' d'' : String} {v : β}
    {ws : List Word} (named : isName name)
    (takes : Takes ts (⟨k.token, doc⟩ :: ⟨.ident name, d⟩ :: ⟨.mark .openBrace, d'⟩ ::
      (ws ++ [⟨.mark .closeBrace, d''⟩])) rest)
    (inside : ∀ {start closed ts}, docOf start = doc → closed.token = .mark .closeBrace →
      Takes ts ws (closed :: rest) → ∃ statements,
        Admits (JudgesRow (P name)) ts statements (closed :: rest) ∧
          make start name statements = .ok v) :
    Admits (JudgesBlock k isName P make) ts v rest := by
  obtain ⟨start, _, rfl, word, behind⟩ := takes_cons_iff.mp takes
  obtain ⟨found, documented⟩ := Located.word_eq_iff.mp word
  obtain ⟨_, takesName, behind⟩ := takes_head_iff.mp behind
  obtain ⟨opened, _, rfl, word', behind⟩ := takes_cons_iff.mp behind
  obtain ⟨opens, _⟩ := Located.word_eq_iff.mp word'
  obtain ⟨_, takes, behind⟩ := takes_append_iff.mp behind
  obtain ⟨closed, rfl, closes⟩ := exists_of_takes behind
  obtain ⟨statements, ⟨j, row, accepts⟩, made⟩ := inside documented closes takes
  exact ⟨_, .intro found named takesName opens row closes, accepts.declare start closed made⟩

private theorem admits_extendStatement {ws : List Word} {s : ExtendStatement}
    (takes : Takes ts ws rest)
    (phrase : IsExtendStatement ws s ∧ ∀ f, s.field? = some f → f.depth ≤ budget) :
    Admits (JudgesExtendStatement budget) ts s rest := by
  obtain ⟨phrase, depth⟩ := phrase
  cases phrase with
  | empty =>
    obtain ⟨t, rfl, found⟩ := exists_of_takes takes
    exact ⟨_, .empty found, Judged.accepts_plain _⟩
  | field phrase =>
    obtain ⟨j, judged, accepts⟩ := admits_field takes phrase (depth _ rfl)
    cases phrase with
    | intro isLabel _ =>
      obtain ⟨t, _, rfl, word, _⟩ := takes_cons_iff.mp takes
      obtain ⟨found, _⟩ := Located.word_eq_iff.mp word
      exact ⟨_, .field found isLabel judged, accepts.map _⟩

theorem admits_extend {ws : List Word} {e : ExtendBlock} (takes : Takes ts ws rest)
    (phrase : IsExtend ws e) (depth : e.depth ≤ budget) :
    Admits (JudgesExtend budget) ts e rest := by
  cases phrase with
  | intro row made =>
    have fits := (ExtendBlock.depth_le_iff made).mp depth
    refine admits_block trivial takes fun documented _ takes => ⟨_, ?_, documented ▸ made⟩
    rw [List.forall_mem_filterMap] at fits
    exact admits_row admits_extendStatement takes (IsSequence.and_iff.mpr ⟨row, fits⟩)

private theorem admits_enumValue {ws : List Word} {v : EnumValue} (takes : Takes ts ws rest)
    (phrase : IsEnumValue ws v) (depth : v.depth ≤ budget) :
    Admits (JudgesEnumValue budget) ts v rest := by
  cases phrase with
  | intro plain differs brackets made =>
    obtain ⟨start, _, rfl, word, _⟩ := takes_cons_iff.mp takes
    obtain ⟨_, rfl⟩ := Located.word_eq_iff.mp word
    have fits := (EnumValue.depth_le_iff made).mp depth
    obtain ⟨j, numbered, accepts⟩ : Admits (JudgesNumbered budget
        (fun name => isPlainName name = true ∧ name ≠ Keyword.optionWord.spelling) start
        fun name tag => EnumValue.make name tag (docOf start)) _ v rest :=
      admits_numbered ⟨plain, differs⟩ takes brackets fits made
    exact ⟨j, .intro numbered, accepts⟩

private theorem admits_enumStatement {ws : List Word} {s : EnumStatement} (takes : Takes ts ws rest)
    (phrase : IsEnumStatement ws s ∧ (∀ v, s.value? = some v → v.depth ≤ budget) ∧
      ∀ st, s.option? = some st → st.depth ≤ budget) :
    Admits (JudgesEnumStatement budget) ts s rest := by
  obtain ⟨phrase, values, options⟩ := phrase
  cases phrase with
  | empty =>
    obtain ⟨t, rfl, found⟩ := exists_of_takes takes
    exact ⟨_, .empty found, Judged.accepts_plain _⟩
  | option phrase => exact ⟨_, .option takes phrase (options _ rfl), Judged.accepts_plain _⟩
  | value phrase =>
    exact (admits_enumValue takes phrase (values _ rfl)).map .value

theorem admits_enum {ws : List Word} {e : EnumType} (takes : Takes ts ws rest)
    (phrase : IsEnum scope ws e) (depth : e.depth ≤ budget) :
    Admits (JudgesEnum budget scope) ts e rest := by
  cases phrase with
  | intro plain row made =>
    have fits := (EnumType.depth_le_iff made).mp depth
    refine admits_block plain takes fun documented _ takes => ⟨_, ?_, documented ▸ made⟩
    simp only [List.forall_mem_filterMap, ← forall_and] at fits
    exact admits_row admits_enumStatement takes (IsSequence.and_iff.mpr ⟨row, fits⟩)

/-! ### Services -/

/-- The end of a method that is read is one with its last token, if more stands behind it. -/
private theorem exists_isRpcEndWithin_of_reads {options : List Setting} (proper : ending.IsProper)
    (h : Reads (rpcOptions budget) ending ts options rest) (more : 1 ≤ rest.length) :
    ∃ last, IsRpcEndWithin budget ts options last rest := by
  simp only [rpcOptions, reads_ifEat_iff proper, reads_bind_iff, reads_rpcStatements_iff proper,
    reads_expect_iff proper, reads_discard_iff, reads_eat_iff proper, reads_pure_iff] at h
  rcases h with ⟨d, _, opening, statements, _, ⟨⟨ws, takes, row, fits⟩, _⟩, _, _, ⟨d', closing⟩, _,
    _, ⟨_, ⟨_, d'', behind⟩ | ⟨_, rfl, other⟩⟩, rfl, rfl⟩ | ⟨_, _, _, ⟨d, takes⟩, rfl, rfl⟩
  · obtain ⟨opened, rfl, opens⟩ := exists_of_takes opening
    obtain ⟨closed, rfl, closes⟩ := exists_of_takes closing
    obtain ⟨last, rfl, ends⟩ := exists_of_takes behind
    exact ⟨last, .both opens row fits takes closes ends⟩
  · -- No semicolon was eaten, so the token behind the brace is another one.
    obtain ⟨opened, rfl, opens⟩ := exists_of_takes opening
    obtain ⟨closed, rfl, closes⟩ := exists_of_takes closing
    obtain ⟨behind, rest, rfl⟩ := List.exists_cons_of_length_pos more
    exact ⟨closed, .braces opens row fits takes closes (sees_cons_iff.mp other)⟩
  · obtain ⟨last, rfl, ends⟩ := exists_of_takes takes
    exact ⟨last, .semicolon ends⟩

private theorem admits_rpc {m : Method} (proper : ending.IsProper)
    (h : Reads (rpc budget) ending ts m rest) (more : 1 ≤ rest.length) :
    Admits (JudgesRpc budget) ts m rest := by
  obtain ⟨_, _, name, _, request, response, _, head, takes, reads, made⟩ :=
    (reads_rpc_iff proper).mp h
  obtain ⟨last, ends⟩ := exists_isRpcEndWithin_of_reads proper reads more
  cases head with
  | intro plain =>
    obtain ⟨start, _, rfl, word, _⟩ := takes_cons_iff.mp takes
    obtain ⟨_, rfl⟩ := Located.word_eq_iff.mp word
    exact ⟨_, .intro (.intro plain) takes ends, (Judged.accepts_plain _).declare start last made⟩

/-- What is read as a statement of a service is one. -/
private theorem serviceStatement_admits {o : Option ServiceStatement} (proper : ending.IsProper)
    (h : Reads (serviceStatement budget) ending ts o rest) :
    (o = none ∧ ts = rest) ∨ ∃ s, o = some s ∧
      (1 ≤ rest.length → Admits (JudgesServiceStatement budget) ts s rest) := by
  simp only [serviceStatement, reads_bind_iff, reads_peek_iff] at h
  obtain ⟨t, _, ⟨seen, rfl⟩, h⟩ := h
  split at h
  next =>
    obtain ⟨rfl, rfl⟩ := reads_pure_iff.mp h
    exact .inl ⟨rfl, rfl⟩
  next skips =>
    rw [eq_cons_of_front? proper seen (by simp [skips])] at h ⊢
    simp only [reads_bind_iff, reads_discard_iff, reads_next_iff, reads_pure_iff] at h
    obtain ⟨_, _, ⟨_, _, rfl⟩, rfl, rfl⟩ := h
    exact .inr ⟨_, rfl, fun _ => ⟨_, .empty skips, Judged.accepts_plain _⟩⟩
  next =>
    split at h
    next isOption =>
      have word := Token.keyword?_eq_some_iff.mp isOption
      rw [eq_cons_of_front? proper seen (by simp [word, Keyword.token])] at h ⊢
      obtain ⟨s, rfl, ws, takes, phrase, fits⟩ := (reads_optionWord_iff proper word).mp h
      exact .inr ⟨_, rfl, fun _ => ⟨_, .option takes phrase fits, Judged.accepts_plain _⟩⟩
    next => exact statement_admits (admits_rpc proper) .method h
    next => exact absurd h not_reads_unexpected

/-- The grammar takes a semicolon behind a method as its end or as an empty statement, so it is the
reader that says which of them it is. -/
theorem admits_service {s : Service} (proper : ending.IsProper)
    (h : Reads (service budget scope) ending ts s rest) :
    Admits (JudgesService budget scope) ts s rest := by
  simp only [service, reads_bind_iff, reads_expectKeyword_iff proper, reads_plainName_iff proper,
    reads_expect_iff proper, reads_accept_iff] at h
  obtain ⟨start, _, ⟨rfl, word⟩, name, _, ⟨plain, d, takesName⟩, _, _, ⟨d', opening⟩, statements, _,
    reads, _, _, ⟨d'', closing⟩, made, rfl⟩ := h
  obtain ⟨opened, rfl, opens⟩ := exists_of_takes opening
  obtain ⟨closed, rfl, closes⟩ := exists_of_takes closing
  obtain ⟨_, j, row, accepts⟩ := admits_row_of_many (serviceStatement_admits proper)
    fills_of_serviceStatement reads (by simp)
  exact ⟨_, .intro word plain takesName opens row closes, accepts.declare start closed made⟩

/-! ### Messages -/

private theorem admits_messageStatement {message : Phrase Message} {ws : List Word}
    {s : MessageStatement}
    (messages : ∀ {ts ws m rest}, Takes ts ws rest → IsMessage scope ws m → m.depth ≤ budget →
      Admits message ts m rest)
    (takes : Takes ts ws rest) (phrase : IsMessageStatement scope ws s ∧ s.Fits budget) :
    Admits (JudgesMessageStatement message budget scope) ts s rest := by
  rcases phrase with ⟨phrase | ⟨m, rfl, phrase⟩, fits⟩
  · cases phrase with
    | empty =>
      obtain ⟨t, rfl, found⟩ := exists_of_takes takes
      exact ⟨_, .empty found, Judged.accepts_plain _⟩
    | field phrase => exact (admits_field takes phrase (by simpa using fits)).map .field
    | mapField phrase => exact (admits_mapField takes phrase (by simpa using fits)).map .field
    | enumType phrase =>
      have nested := admits_enum takes phrase (by simpa [TypeDecl.depth] using fits)
      exact nested.map JudgesMessageStatement.enumType
    | extend phrase => exact (admits_extend takes phrase (by simpa using fits)).map .extend
    | extensions phrase => exact (admits_extensions takes phrase).map .extensions
    | option phrase =>
      exact ⟨_, .option takes phrase (by simpa using fits), Judged.accepts_plain _⟩
  · have nested := messages takes phrase (by simpa [TypeDecl.depth] using fits)
    exact nested.map JudgesMessageStatement.message

theorem admits_message {ws : List Word} {m : Message} (takes : Takes ts ws rest)
    (phrase : IsMessage scope ws m) (depth : m.depth ≤ budget) :
    Admits (JudgesMessage budget scope) ts m rest := by
  -- The budget pays for the messages inside each other.
  induction budget generalizing scope ts rest ws m with
  | zero => exact absurd depth (Nat.not_le.mpr m.depth_pos)
  | succ budget ih =>
    cases phrase with
    | intro plain body made =>
      have fits := (depth_le_succ_iff_fits made).mp depth
      refine admits_block plain takes fun documented _ takes => ⟨_, ?_, documented ▸ made⟩
      exact admits_row (admits_messageStatement ih) takes
        (IsSequence.and_iff.mpr ⟨isMessageBody_iff.mp body, fits⟩)

/-! ### Files -/

/-- What is read as a statement of a file is one. -/
private theorem fileStatement_admits {o : Option FileStatement} (proper : ending.IsProper)
    (h : Reads (fileStatement budget scope) ending ts o rest) :
    (o = none ∧ ts = rest) ∨ ∃ s, o = some s ∧
      (0 ≤ rest.length → Admits (JudgesFileStatement budget scope) ts s rest) := by
  rw [fileStatement] at h
  obtain ⟨t, _, peeked, h⟩ := reads_bind_iff.mp h
  obtain ⟨seen, rfl⟩ := reads_peek_iff.mp peeked
  by_cases atEnd : t.token = .eof
  · rw [if_pos atEnd] at h
    obtain ⟨rfl, rfl⟩ := reads_pure_iff.mp h
    exact .inl ⟨rfl, rfl⟩
  rw [if_neg atEnd] at h
  obtain ⟨ts', rfl⟩ : ∃ ts', ts = t :: ts' := ⟨_, eq_cons_of_front? proper seen atEnd⟩
  by_cases skips : t.token = .mark .semicolon
  · rw [if_pos skips] at h
    simp only [reads_bind_iff, reads_discard_iff, reads_next_iff, reads_pure_iff] at h
    obtain ⟨_, _, ⟨_, _, rfl⟩, rfl, rfl⟩ := h
    exact .inr ⟨_, rfl, fun _ => ⟨_, .empty skips, Judged.accepts_plain _⟩⟩
  rw [if_neg skips] at h
  split at h
  next =>
    obtain ⟨rfl, rfl⟩ := reads_pure_iff.mp h
    exact .inl ⟨rfl, rfl⟩
  next isImport =>
    obtain ⟨s, _, reads, h⟩ := reads_bind_iff.mp h
    obtain ⟨rfl, rfl⟩ := reads_pure_iff.mp h
    obtain ⟨isPublic, path, rfl, ws, takes, phrase⟩ :=
      (reads_importStatement_iff proper (Token.keyword?_eq_some_iff.mp isImport)).mp reads
    exact .inr ⟨_, rfl, fun _ => ⟨_, .imported takes phrase, Judged.accepts_plain _⟩⟩
  next isOption =>
    obtain ⟨s, rfl, ws, takes, phrase, fits⟩ :=
      (reads_optionWord_iff proper (Token.keyword?_eq_some_iff.mp isOption)).mp h
    exact .inr ⟨_, rfl, fun _ => ⟨_, .option takes phrase fits, Judged.accepts_plain _⟩⟩
  next =>
    refine statement_admits (fun reads _ => ?_) .message h
    obtain ⟨ws, takes, phrase, depth⟩ := (reads_message_iff proper).mp reads
    exact admits_message takes phrase depth
  next =>
    refine statement_admits (fun reads _ => ?_) .enumType h
    obtain ⟨ws, takes, phrase, depth⟩ := (reads_enumType_iff proper).mp reads
    exact admits_enum takes phrase depth
  next =>
    refine statement_admits (fun reads _ => ?_) .extend h
    obtain ⟨ws, takes, phrase, depth⟩ := (reads_extendBlock_iff proper).mp reads
    exact admits_extend takes phrase depth
  next => exact statement_admits (fun reads _ => admits_service proper reads) .service h
  next => exact absurd h not_reads_unexpected

private theorem admits_fileStatements {statements : List FileStatement} (proper : ending.IsProper)
    (h : Reads (many (fileStatement budget scope)) ending ts statements rest) :
    Admits (JudgesRow (JudgesFileStatement budget scope)) ts statements rest :=
  (admits_row_of_many (fileStatement_admits proper) fills_of_fileStatement h (Nat.zero_le _)).2

theorem admits_version {version : Option String} (proper : ending.IsProper)
    (h : Reads versionStatement? ending ts version rest) :
    Admits JudgesVersion ts version rest := by
  simp only [versionStatement?, reads_ifKeyword_iff proper, reads_bind_iff, reads_expect_iff proper,
    reads_peek_iff, reads_textLiteral_iff proper, reads_accept_iff, reads_pure_iff] at h
  rcases h with ⟨d, _, first, _, _, ⟨d', equals⟩, t, _, ⟨seen, rfl⟩, version, _,
    ⟨⟨ws, bytes, takes, phrase, decoded⟩, _⟩, _, _, ⟨d'', closing⟩, _, _, ⟨known, rfl⟩, rfl, rfl⟩ |
    ⟨other, rfl, rfl⟩
  · obtain ⟨closed, rfl, closes⟩ := exists_of_takes closing
    -- The statement is judged at its literal, which is made of one token at least.
    obtain ⟨start, mid, rfl⟩ : ∃ start mid, _ = start :: mid := by
      cases phrase <;> exact (takes_cons_iff.mp takes).imp fun _ h => h.imp fun _ h => h.1
    have declared : ((Judged.plain version).declare start closed fun version =>
        demand (version = knownVersion) (.unsupportedVersion version)).Accepts () :=
      (Judged.accepts_plain version).declare start closed known
    exact ⟨_, .present (first.trans equals) phrase decoded takes closes, declared.map _⟩
  · refine ⟨_, .absent ?_, Judged.accepts_plain none⟩
    obtain ⟨t, seen, other⟩ := other
    rintro t' front
    cases ts with
    | nil => cases front
    | cons =>
      cases front
      cases seen
      exact other

/-- The statements behind a package declaration, if they are all that is left. -/
private theorem admits_statementsOf {package : String} {statements : List FileStatement}
    (proper : ending.IsProper)
    (h : Reads (statementsOf budget package) ending ts statements []) :
    ∃ j, JudgesBehind budget package ts j ∧ j.Accepts statements := by
  obtain ⟨statements', mid, reads, h⟩ := reads_bind_iff.mp h
  obtain ⟨o, _, package', h⟩ := reads_bind_iff.mp h
  rcases (reads_packageStatement_iff proper).mp package' with ⟨rfl, rfl, _⟩ | ⟨t, name, rfl, _⟩
  · obtain ⟨rfl, rfl⟩ := reads_pure_iff.mp h
    obtain ⟨j, row, accepts⟩ := admits_fileStatements proper reads
    exact ⟨j, .last row, accepts⟩
  · -- A further package declaration is refused.
    simp at h

/-- A file that is read to the end is one whose declarations break no rule. -/
theorem exists_judgesFile_of_reads {text : FileText} (proper : ending.IsProper)
    (h : Reads (fileText budget) ending ts text []) :
    ∃ j, JudgesFile budget ts j ∧ j.Accepts text := by
  obtain ⟨version, _, readsVersion, h⟩ := reads_bind_iff.mp h
  obtain ⟨before, _, readsBefore, h⟩ := reads_bind_iff.mp h
  obtain ⟨o, _, readsPackage, h⟩ := reads_bind_iff.mp h
  obtain ⟨j, judgesVersion, accepts⟩ := admits_version proper readsVersion
  obtain ⟨k, row, accepts'⟩ := admits_fileStatements proper readsBefore
  rcases (reads_packageStatement_iff proper).mp readsPackage with
    ⟨rfl, rfl, _⟩ | ⟨t, package, rfl, _, _, takes, d, d', d'', rfl⟩
  · obtain ⟨rfl, rfl⟩ := reads_pure_iff.mp h
    exact ⟨_, .withoutPackage judgesVersion row, accepts.map₂ accepts' _⟩
  · obtain ⟨behind, _, readsBehind, h⟩ := reads_bind_iff.mp h
    obtain ⟨rfl, rfl⟩ := reads_pure_iff.mp h
    obtain ⟨l, judgesBehind, accepts''⟩ := admits_statementsOf proper readsBehind
    exact ⟨_, .withPackage judgesVersion row takes judgesBehind,
      accepts.map₂ (accepts'.map₂ accepts'' Prod.mk) _⟩

end Reading

/-- If no declaration of a text breaks a rule, the file that it says is checked as a whole. -/
theorem parse_of_accepts {config : DocConfig} {name : String} {text : List Char}
    {endMark : Located} {j : Judged Reading.FileText} {t : Reading.FileText}
    (finished : (TokenStream.ofText config text).ending = .finished endMark)
    (judged : JudgesFile Reading.nestingLimit (TokenStream.ofText config text).tokens j)
    (accepts : j.Accepts t) :
    parse config name text =
      match SchemaFile.make name t.body with
      | .ok f => .ok f
      | .error broken => .error (.violation broken (t.positionOf broken)) := by
  have proper := TokenStream.ofText_isProper config text
  rw [finished] at proper
  obtain ⟨said, _⟩ := accepts
  rw [parse, ofStream, finished, Reading.file]
  cases Reading.yields_fileText proper judged with
  | accepted _ reads =>
    cases said
    rw [run_bind_of_reads reads]
    cases SchemaFile.make name t.body <;> rfl
  | rejected => cases said

/-- A text is parsed to a file exactly if it is without lexical faults, it is made of the right
phrases, no declaration in it breaks a rule, and the file that it says does not either. -/
theorem parse_eq_ok_iff_judgesFile {config : DocConfig} {name : String} {text : List Char}
    {f : SchemaFile} :
    parse config name text = .ok f ↔
      ∃ endMark j t, (TokenStream.ofText config text).ending = .finished endMark ∧
        JudgesFile Reading.nestingLimit (TokenStream.ofText config text).tokens j ∧
        j.Accepts t ∧ SchemaFile.make name t.body = .ok f := by
  constructor
  · intro parsed
    have proper := TokenStream.ofText_isProper config text
    rw [parse, ofStream_eq_ok_iff] at parsed
    obtain ⟨rest, reads⟩ := parsed
    obtain ⟨⟨_, _, ⟨used, whole, _⟩, _⟩, atEnd⟩ := (Reading.reads_file_iff proper).mp reads
    have more : ∀ t ∈ rest, t.token ≠ .eof := fun t member =>
      TokenStream.ne_eof_of_mem_ofText (whole ▸ List.mem_append_right used member)
    obtain ⟨rfl, endMark, finished⟩ := (sees_eof_iff proper more).mp atEnd
    obtain ⟨t, mid, readsText, h⟩ := reads_bind_iff.mp reads
    cases made : SchemaFile.make name t.body with
    | error broken =>
      rw [made] at h
      simp at h
    | ok f' =>
      rw [made] at h
      obtain ⟨rfl, rfl⟩ := reads_pure_iff.mp h
      obtain ⟨j, judged, accepts⟩ := Reading.exists_judgesFile_of_reads proper readsText
      exact ⟨endMark, j, t, finished, judged, accepts, made⟩
  · rintro ⟨endMark, j, t, finished, judged, accepts, made⟩
    rw [parse_of_accepts finished judged accepts, made]

end ProtoSchema
