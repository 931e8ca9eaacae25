import ProtoSchema.Proofs.Grammar.Declaration
import ProtoSchema.Proofs.Reading.Value
import ProtoSchema.Proofs.Schema.Construction

/-!
# Readers of declarations accept their grammar

Each declaration ends with a mark of its own, so what is read does not depend on what stands behind
it. Only a method may be followed by a semicolon that could be an empty statement as well; it says
the same either way.
-/

namespace ProtoSchema

/-! ### Depth of what is made -/

section Depth

variable {doc : String} {options : List Setting} {budget : Nat}

theorem Field.depth_le_iff {label : Label} {typeName name : String} {tag : Int} {f : Field}
    (made : make label typeName name tag doc options = .ok f) :
    f.depth ≤ budget ↔ ∀ s ∈ options, s.depth ≤ budget := by
  obtain ⟨_, _, _, _, rfl⟩ := make_eq_ok_iff.mp made
  exact greatest_le_iff

theorem ExtendBlock.depth_le_iff {target : String} {fields : List Field} {e : ExtendBlock}
    (made : make target doc fields = .ok e) :
    e.depth ≤ budget ↔ ∀ f ∈ fields, f.depth ≤ budget := by
  obtain ⟨_, _, rfl⟩ := make_eq_ok_iff.mp made
  exact greatest_le_iff

theorem EnumValue.depth_le_iff {name : String} {tag : Int} {v : EnumValue}
    (made : make name tag doc options = .ok v) :
    v.depth ≤ budget ↔ ∀ s ∈ options, s.depth ≤ budget := by
  obtain ⟨_, _, rfl⟩ := make_eq_ok_iff.mp made
  exact greatest_le_iff

theorem EnumType.depth_le_iff {name fullName : String} {values : List EnumValue} {e : EnumType}
    (made : make name fullName doc values options = .ok e) :
    e.depth ≤ budget ↔
      (∀ v ∈ values, v.depth ≤ budget) ∧ ∀ s ∈ options, s.depth ≤ budget := by
  obtain ⟨_, _, rfl⟩ := make_eq_ok_iff.mp made
  rw [EnumType.depth, Nat.max_le, greatest_le_iff, greatest_le_iff]

theorem Method.depth_le_iff {name request response : String} {m : Method}
    (made : make name doc request response options = .ok m) :
    m.depth ≤ budget ↔ ∀ s ∈ options, s.depth ≤ budget := by
  obtain ⟨_, _, _, rfl⟩ := make_eq_ok_iff.mp made
  exact greatest_le_iff

theorem Service.depth_le_iff {name fullName : String} {methods : List Method} {s : Service}
    (made : make name fullName doc options methods = .ok s) :
    s.depth ≤ budget ↔
      (∀ s ∈ options, s.depth ≤ budget) ∧ ∀ m ∈ methods, m.depth ≤ budget := by
  obtain ⟨_, _, rfl⟩ := make_eq_ok_iff.mp made
  rw [Service.depth, Nat.max_le, greatest_le_iff, greatest_le_iff]

end Depth

end ProtoSchema

namespace ProtoSchema.Reading

open Reader Grammar

variable {ending : Ending} {ts rest : List Located} {budget : Nat}

/-! ### Fields -/

theorem reads_fieldRest_iff {start : Located} {label : Label} {typeName : String} {f : Field}
    (proper : ending.IsProper) :
    Reads (fieldRest budget start label typeName) ending ts f rest ↔
      ∃ ws, Takes ts ws rest ∧ IsFieldRest (docOf start) label typeName ws f ∧
        f.depth ≤ budget := by
  have brackets := accepts_bracketOptions budget proper
  simp only [fieldRest, reads_bind_iff, reads_plainName_iff proper, reads_expect_iff proper,
    reads_int_iff proper, reads_accept_iff]
  constructor
  · rintro ⟨name, _, ⟨plain, d, takesName⟩, _, _, ⟨d', equals⟩, tag, _, ⟨d'', takesTag⟩, options, _,
      reads, _, _, ⟨c, closed⟩, made, rfl⟩
    obtain ⟨ws, takes, phrase, depth⟩ := brackets.sound reads
    exact ⟨_, takesName.trans (equals.trans (takesTag.trans (takes.trans closed))),
      .intro plain phrase made, (Field.depth_le_iff made).mpr depth⟩
  · rintro ⟨_, takes, phrase, depth⟩
    cases phrase with
    | @intro _ _ _ _ _ _ options _ _ plain phrase made =>
      obtain ⟨mid, takesName, takes⟩ := takes_head_iff.mp takes
      obtain ⟨mid', equals, takes⟩ := takes_head_iff.mp takes
      obtain ⟨mid'', takesTag, takes⟩ := takes_head_iff.mp takes
      obtain ⟨mic, takes, closed⟩ := takes_append_iff.mp takes
      have fits := (Field.depth_le_iff made).mp depth
      have reads := brackets.complete takes ⟨phrase, fits⟩ (closed.sees (by simp))
      exact ⟨_, mid, ⟨plain, _, takesName⟩, ⟨⟩, mid', ⟨_, equals⟩, _, mid'', ⟨_, takesTag⟩, _, mic,
        reads, ⟨⟩, rest, ⟨_, closed⟩, made, rfl⟩

/-- A field is read if its first word is a label. -/
theorem reads_labelledField_iff {start : Located} {k : Keyword} {label : Label} {f : Field}
    (proper : ending.IsProper) (word : start.token = k.token)
    (isLabel : labelOfKeyword? k = some label) :
    Reads (labelledField budget label) ending (start :: ts) f rest ↔
      ∃ ws, Takes (start :: ts) ws rest ∧ IsField ws f ∧ f.depth ≤ budget := by
  simp only [labelledField, reads_bind_iff, reads_next_iff, front?_cons, Option.some.injEq,
    reads_ident_iff proper, reads_fieldRest_iff proper]
  constructor
  · rintro ⟨_, _, ⟨rfl, rfl⟩, typeName, _, ⟨d, takesType⟩, ws, takes, phrase, depth⟩
    have first : Takes (start :: ts) [⟨k.token, docOf start⟩] ts :=
      takes_single_iff.mpr ⟨start, rfl, Located.word_eq_iff.mpr ⟨word, rfl⟩⟩
    exact ⟨_, first.trans (takesType.trans takes), .intro isLabel phrase, depth⟩
  · rintro ⟨_, takes, phrase, depth⟩
    cases phrase with
    | intro isLabel' phrase =>
      obtain ⟨same, behind⟩ := takes_cons_cons_iff.mp takes
      obtain ⟨here, rfl⟩ := Located.word_eq_iff.mp same
      -- The first token tells the keyword, and with it the label.
      obtain rfl := Keyword.token_injective (word.symm.trans here)
      obtain rfl := Option.some.inj (isLabel.symm.trans isLabel')
      obtain ⟨mid, takesType, takes⟩ := takes_head_iff.mp behind
      exact ⟨start, ts, ⟨rfl, rfl⟩, _, mid, ⟨_, takesType⟩, _, takes, phrase, depth⟩

/-- A field begins with a label. -/
theorem label_of_takes_isField {t : Located} {ws : List Word} {f : Field}
    (takes : Takes (t :: ts) ws rest) (phrase : IsField ws f) :
    ∃ k label, t.token = Keyword.token k ∧ labelOfKeyword? k = some label := by
  cases phrase with
  | intro isLabel _ =>
    exact ⟨_, _, token_of_takes takes, isLabel⟩

/-- A map field is read if its first word is the one that begins it. -/
theorem reads_mapField_iff {start : Located} {f : Field} (proper : ending.IsProper)
    (word : start.token = .ident "map") :
    Reads (mapField budget) ending (start :: ts) f rest ↔
      ∃ ws, Takes (start :: ts) ws rest ∧ IsMapField ws f ∧ f.depth ≤ budget := by
  simp only [mapField, reads_bind_iff, reads_next_iff, front?_cons, Option.some.injEq,
    reads_expect_iff proper, reads_ident_iff proper, reads_fieldRest_iff proper]
  constructor
  · rintro ⟨_, _, ⟨rfl, rfl⟩, _, _, ⟨d, less⟩, key, _, ⟨d', takesKey⟩, _, _, ⟨d'', comma⟩, value, _,
      ⟨e, takesValue⟩, _, _, ⟨e', greater⟩, ws, takes, phrase, depth⟩
    have first : Takes (start :: ts) [⟨.ident "map", docOf start⟩] ts :=
      takes_single_iff.mpr ⟨start, rfl, Located.word_eq_iff.mpr ⟨word, rfl⟩⟩
    exact ⟨_, first.trans (less.trans (takesKey.trans (comma.trans (takesValue.trans
      (greater.trans takes))))), .intro phrase, depth⟩
  · rintro ⟨_, takes, phrase, depth⟩
    cases phrase with
    | intro phrase =>
      obtain ⟨same, behind⟩ := takes_cons_cons_iff.mp takes
      obtain ⟨_, rfl⟩ := Located.word_eq_iff.mp same
      obtain ⟨_, less, takes⟩ := takes_head_iff.mp behind
      obtain ⟨_, takesKey, takes⟩ := takes_head_iff.mp takes
      obtain ⟨_, comma, takes⟩ := takes_head_iff.mp takes
      obtain ⟨_, takesValue, takes⟩ := takes_head_iff.mp takes
      obtain ⟨_, greater, takes⟩ := takes_head_iff.mp takes
      exact ⟨start, ts, ⟨rfl, rfl⟩, ⟨⟩, _, ⟨_, less⟩, _, _, ⟨_, takesKey⟩, ⟨⟩, _, ⟨_, comma⟩, _, _,
        ⟨_, takesValue⟩, ⟨⟩, _, ⟨_, greater⟩, _, takes, phrase, depth⟩

/-! ### Extensions -/

theorem accepts_rangeEnd (first : Int) (proper : ending.IsProper) :
    Accepts (rangeEnd first) (IsRangeEnd first) (· ≠ Keyword.toWord.token) ending where
  sound h := by
    simp only [rangeEnd, reads_ifKeyword_iff proper, reads_int_iff proper, reads_pure_iff] at h
    rcases h with ⟨d, mid, upTo, ⟨d', _, takes, rfl, rfl⟩ | ⟨_, d', takes⟩⟩ | ⟨_, rfl, rfl⟩
    · exact ⟨_, upTo.trans takes, .max⟩
    · exact ⟨_, upTo.trans takes, .last⟩
    · exact ⟨[], takes_nil_iff.mpr rfl, .same⟩
  complete takes phrase fits := by
    simp only [rangeEnd, reads_ifKeyword_iff proper, reads_int_iff proper, reads_pure_iff]
    cases phrase with
    | same =>
      obtain rfl := takes_nil_iff.mp takes
      exact .inr ⟨fits, rfl, rfl⟩
    | last =>
      obtain ⟨mid, upTo, takes⟩ := takes_head_iff.mp takes
      exact .inl ⟨_, mid, upTo, .inr ⟨takes.sees (by simp [Keyword.token]), _, takes⟩⟩
    | max =>
      obtain ⟨mid, upTo, takes⟩ := takes_head_iff.mp takes
      exact .inl ⟨_, mid, upTo, .inl ⟨_, _, takes, rfl, rfl⟩⟩

private theorem accepts_extensionRange (doc : String) (proper : ending.IsProper) :
    Accepts (extensionRange doc) (IsRange doc) (· ≠ Keyword.toWord.token) ending where
  sound h := by
    simp only [extensionRange, reads_bind_iff, reads_peek_iff, reads_int_iff proper,
      reads_accept_iff] at h
    obtain ⟨t, _, ⟨_, rfl⟩, first, _, ⟨d, takes⟩, last, _, reads, made, rfl⟩ := h
    obtain ⟨ws, takes', phrase⟩ := (accepts_rangeEnd first proper).sound reads
    exact ⟨_, takes.trans takes', .intro phrase made⟩
  complete takes phrase fits := by
    cases phrase with
    | intro phrase made =>
      obtain ⟨t, mid, rfl, word, behind⟩ := takes_cons_iff.mp takes
      obtain ⟨_, first, _⟩ := takes_head_iff.mp takes
      have reads := (accepts_rangeEnd _ proper).complete behind phrase fits
      simp only [extensionRange, reads_bind_iff, reads_peek_iff, reads_int_iff proper,
        reads_accept_iff]
      exact ⟨t, _, ⟨rfl, rfl⟩, _, mid, ⟨_, takes_single_iff.mpr ⟨t, rfl, word⟩⟩, _, _, reads, made, rfl⟩

theorem reads_extensions_iff {ranges : List ExtensionRange} (proper : ending.IsProper) :
    Reads extensions ending ts ranges rest ↔ ∃ ws, Takes ts ws rest ∧ IsExtensions ws ranges := by
  simp only [extensions, reads_bind_iff, reads_expectKeyword_iff proper, reads_expect_iff proper,
    reads_pure_iff]
  constructor
  · rintro ⟨start, _, ⟨rfl, word⟩, _, _, reads, _, _, ⟨d, closed⟩, rfl, rfl⟩
    obtain ⟨ws, takes, list⟩ := (accepts_commaSeparated proper
      (accepts_extensionRange (docOf start) proper) (by simp [Keyword.token])).sound reads
    exact ⟨_, takes_cons_cons_iff.mpr ⟨Located.word_eq_iff.mpr ⟨word, rfl⟩, takes.trans closed⟩,
      .intro list⟩
  · rintro ⟨_, takes, phrase⟩
    cases phrase with
    | intro list =>
      obtain ⟨start, mid, rfl, word, behind⟩ := takes_cons_iff.mp takes
      obtain ⟨here, rfl⟩ := Located.word_eq_iff.mp word
      obtain ⟨mid', takes, closed⟩ := takes_append_iff.mp behind
      have reads := (accepts_commaSeparated proper
        (accepts_extensionRange (docOf start) proper) (by simp [Keyword.token])).complete takes list
          (closed.sees (by simp [Keyword.token]))
      exact ⟨start, mid, ⟨rfl, here⟩, _, mid', reads, ⟨⟩, rest, ⟨_, closed⟩, rfl, rfl⟩

/-! ### Statements -/

section Statements

variable {α : Type} {f : Located → Reader (Option α)} {stop : Token → Prop} {empty : α}
  {P : List Word → α → Prop}

/-- The empty statement, or a statement of another kind. -/
def IsStatement (empty : α) (P : List Word → α → Prop) (ws : List Word) (s : α) : Prop :=
  (s = empty ∧ ∃ d, ws = [⟨.mark .semicolon, d⟩]) ∨ P ws s

/-- What is to be known of a reader of statements, which has looked at the next token: where it stops,
that it skips semicolons, and that it reads statements of a kind. -/
structure IsStatementReader (f : Located → Reader (Option α)) (ending : Ending) (stop : Token → Prop)
    (empty : α) (P : List Word → α → Prop) : Prop where
  stops : ∀ t, stop t.token → f t = pure none
  skips : ∀ t, t.token = .mark .semicolon → f t = discard next >>= fun _ => pure (some empty)
  reads : ∀ {t ts rest} {o : Option α}, ¬ stop t.token → t.token ≠ .mark .semicolon →
    (Reads (f t) ending (t :: ts) o rest ↔
      ∃ s, o = some s ∧ ∃ ws, Takes (t :: ts) ws rest ∧ P ws s)
  ends : ∀ {t : Located} {o : Option α} {rest}, t.token = .eof → ¬ stop .eof →
    ¬ Reads (f t) ending [] o rest
  more : ¬ stop (.mark .semicolon)
  first : ∀ {ws s}, P ws s → ∃ w ws', ws = w :: ws' ∧ ¬ stop w.token ∧
    w.token ≠ .mark .semicolon

namespace IsStatementReader

variable (h : IsStatementReader f ending stop empty P)

include h

/-- A statement begins with a word that does not stop the reader. -/
private theorem exists_cons {ws : List Word} {s : α} (statement : IsStatement empty P ws s) :
    ∃ w ws', ws = w :: ws' ∧ ¬ stop w.token := by
  rcases statement with ⟨_, d, rfl⟩ | phrase
  · exact ⟨_, [], rfl, h.more⟩
  · obtain ⟨w, ws', rfl, go, _⟩ := h.first phrase
    exact ⟨w, ws', rfl, go⟩

/-- In front of a token that does not stop it a statement is read. -/
private theorem reads_cons_iff {t : Located} {o : Option α} (go : ¬ stop t.token) :
    Reads (f t) ending (t :: ts) o rest ↔
      ∃ s, o = some s ∧ ∃ ws, Takes (t :: ts) ws rest ∧ IsStatement empty P ws s := by
  by_cases skip : t.token = .mark .semicolon
  · simp only [h.skips t skip, reads_bind_iff, reads_discard_iff, reads_next_iff, reads_pure_iff]
    constructor
    · rintro ⟨_, _, ⟨_, _, rfl⟩, rfl, rfl⟩
      exact ⟨empty, rfl, [t.word], takes_single_iff.mpr ⟨t, rfl, rfl⟩, .inl ⟨rfl, docOf t,
        congrArg ([Word.mk · (docOf t)]) skip⟩⟩
    · rintro ⟨_, rfl, ws, takes, ⟨rfl, d, rfl⟩ | phrase⟩
      · obtain ⟨_, whole, _⟩ := takes_single_iff.mp takes
        cases whole
        exact ⟨⟨⟩, _, ⟨t, rfl, rfl⟩, rfl, rfl⟩
      · -- No other statement begins with a semicolon.
        obtain ⟨w, ws', rfl, _, other⟩ := h.first phrase
        obtain ⟨rfl, _⟩ := takes_cons_cons_iff.mp takes
        exact absurd skip other
  · rw [h.reads go skip]
    constructor
    · rintro ⟨s, rfl, ws, takes, phrase⟩
      exact ⟨s, rfl, ws, takes, .inr phrase⟩
    · rintro ⟨s, rfl, ws, takes, ⟨rfl, d, rfl⟩ | phrase⟩
      · obtain ⟨word, _⟩ := takes_cons_cons_iff.mp takes
        exact absurd (Located.word_eq_iff.mp word).1 skip
      · exact ⟨s, rfl, ws, takes, phrase⟩

/-- At the end of the text there is a statement only if the end does not stop the reader. -/
private theorem reads_item_iff {o : Option α} (proper : ending.IsProper) :
    Reads (peek >>= f) ending ts o rest ↔
      (∃ s, o = some s ∧ ∃ ws, Takes ts ws rest ∧ IsStatement empty P ws s) ∨
        o = none ∧ ts = rest ∧ Sees stop ending ts := by
  simp only [reads_bind_iff, reads_peek_iff]
  constructor
  · rintro ⟨t, _, ⟨seen, rfl⟩, reads⟩
    by_cases go : stop t.token
    · rw [h.stops t go] at reads
      obtain ⟨rfl, rfl⟩ := reads_pure_iff.mp reads
      exact .inr ⟨rfl, rfl, t, seen, go⟩
    · cases ts with
      | cons t' ts =>
        cases seen
        exact .inl ((h.reads_cons_iff go).mp reads)
      | nil =>
        have atEnd := eof_of_front?_nil proper seen
        exact absurd reads (h.ends atEnd (atEnd ▸ go))
  · rintro (⟨s, rfl, ws, takes, phrase⟩ | ⟨rfl, rfl, t, seen, go⟩)
    · obtain ⟨w, ws', rfl, go⟩ := h.exists_cons phrase
      obtain ⟨t, mid, rfl, rfl, _⟩ := takes_cons_iff.mp takes
      exact ⟨t, _, ⟨rfl, rfl⟩, (h.reads_cons_iff go).mpr ⟨s, rfl, _, takes, phrase⟩⟩
    · exact ⟨t, ts, ⟨seen, rfl⟩, by simp [h.stops t go]⟩

/-- A reader of statements accepts them up to where the next token stops it. -/
theorem reads_many_iff {statements : List α} (proper : ending.IsProper) :
    Reads (many (peek >>= f)) ending ts statements rest ↔
      (∃ ws, Takes ts ws rest ∧ IsSequence (IsStatement empty P) ws statements) ∧
        Sees stop ending rest := by
  refine Reader.reads_many_iff (fun {_ _ _} => ?_) (fun {_ _} => ?_) fun phrase => ?_
  · simp [h.reads_item_iff proper]
  · simp [h.reads_item_iff proper]
  · obtain ⟨w, ws', rfl, _⟩ := h.exists_cons phrase
    simp

end IsStatementReader

section Made

variable {β : Type} {reader : Reader β} {of : β → α} {o : Option α}

/-- What is made into a statement is accepted if what it is made of is. -/
theorem exists_statement_of_reads {Q : List Word → β → Prop}
    (accepts : ∀ {v}, Reads reader ending ts v rest → ∃ ws, Takes ts ws rest ∧ Q ws v)
    (phrase : ∀ {ws v}, Q ws v → P ws (of v))
    (h : Reads (reader >>= fun v => pure (some (of v))) ending ts o rest) :
    ∃ s, o = some s ∧ ∃ ws, Takes ts ws rest ∧ P ws s := by
  obtain ⟨v, mid, reads, h⟩ := reads_bind_iff.mp h
  obtain ⟨rfl, rfl⟩ := reads_pure_iff.mp h
  obtain ⟨ws, takes, holds⟩ := accepts reads
  exact ⟨of v, rfl, ws, takes, phrase holds⟩

theorem reads_statement_of {v : β} (h : Reads reader ending ts v rest) :
    Reads (reader >>= fun v => pure (some (of v))) ending ts (some (of v)) rest :=
  reads_bind_iff.mpr ⟨v, rest, h, reads_pure_iff.mpr ⟨rfl, rfl⟩⟩

end Made

/-- An option statement as a statement of some kind. -/
theorem reads_optionWord_iff {t : Located} {o : Option α} {of : Setting → α}
    (proper : ending.IsProper) (word : t.token = Keyword.optionWord.token) :
    Reads (do
        discard next
        return some (of (← optionStatement budget))) ending (t :: ts) o rest ↔
      ∃ s, o = some (of s) ∧ ∃ ws, Takes (t :: ts) ws rest ∧ IsOptionStatement ws s ∧
        s.depth ≤ budget := by
  simp only [reads_bind_iff, reads_discard_iff, reads_next_iff, reads_optionStatement_iff proper,
    reads_pure_iff]
  constructor
  · rintro ⟨_, _, ⟨_, _, rfl⟩, s, _, ⟨ws, d, ⟨phrase, depth⟩, takes⟩, rfl, rfl⟩
    exact ⟨s, rfl, _, takes_cons_cons_iff.mpr ⟨Located.word_eq_iff.mpr ⟨word, rfl⟩, takes⟩,
      .intro phrase, depth⟩
  · rintro ⟨s, rfl, _, takes, phrase, depth⟩
    cases phrase with
    | intro phrase =>
      obtain ⟨_, behind⟩ := takes_cons_cons_iff.mp takes
      exact ⟨⟨⟩, ts, ⟨t, rfl, rfl⟩, s, rest, ⟨_, _, ⟨phrase, depth⟩, behind⟩, rfl, rfl⟩

end Statements

/-! ### Extend blocks -/

private def IsExtendField (budget : Nat) (ws : List Word) (s : ExtendStatement) : Prop :=
  ∃ f, s = .field f ∧ IsField ws f ∧ f.depth ≤ budget

private theorem isExtendStatement_iff {ws : List Word} {s : ExtendStatement} :
    IsStatement .empty (IsExtendField budget) ws s ↔
      IsExtendStatement ws s ∧ ∀ f, s.field? = some f → f.depth ≤ budget := by
  constructor
  · rintro (⟨rfl, d, rfl⟩ | ⟨f, rfl, phrase, depth⟩)
    · exact ⟨.empty, by simp [ExtendStatement.field?]⟩
    · exact ⟨.field phrase, by simpa [ExtendStatement.field?] using depth⟩
  · rintro ⟨phrase, depth⟩
    cases phrase with
    | empty => exact .inl ⟨rfl, _, rfl⟩
    | field phrase => exact .inr ⟨_, rfl, phrase, depth _ rfl⟩

private theorem reads_extendStatements_iff {statements : List ExtendStatement}
    (proper : ending.IsProper) :
    Reads (many (extendStatement budget)) ending ts statements rest ↔
      (∃ ws, Takes ts ws rest ∧ IsSequence IsExtendStatement ws statements ∧
        ∀ f ∈ statements.filterMap ExtendStatement.field?, f.depth ≤ budget) ∧
        Sees (· = .mark .closeBrace) ending rest := by
  simp only [List.forall_mem_filterMap, ← IsSequence.and_iff, ← isExtendStatement_iff]
  refine IsStatementReader.reads_many_iff ⟨?_, ?_, ?_, ?_, by simp, ?_⟩ proper
  · intro t closes
    simp [closes]
  · intro t skips
    simp [skips]
  · intro t ts rest o _ _
    split
    next => contradiction
    next => contradiction
    next =>
      split
      next label found =>
        obtain ⟨k, same, isLabel⟩ := Option.bind_eq_some_iff.mp found
        have word := Token.keyword?_eq_some_iff.mp same
        simp only [reads_bind_iff, reads_labelledField_iff proper word isLabel, reads_pure_iff]
        constructor
        · rintro ⟨f, _, ⟨ws, takes, phrase, depth⟩, rfl, rfl⟩
          exact ⟨_, rfl, ws, takes, f, rfl, phrase, depth⟩
        · rintro ⟨_, rfl, ws, takes, f, rfl, phrase, depth⟩
          exact ⟨f, rest, ⟨ws, takes, phrase, depth⟩, rfl, rfl⟩
      next none =>
        refine ⟨fun h => absurd h not_reads_unexpected, ?_⟩
        rintro ⟨_, rfl, ws, takes, f, rfl, phrase, depth⟩
        obtain ⟨k, label, word, isLabel⟩ := label_of_takes_isField takes phrase
        simp [Token.keyword?_eq_some_iff.mpr word, isLabel] at none
  · intro t o rest atEnd _
    simp [atEnd, Token.keyword?]
  · rintro ws _ ⟨f, rfl, phrase, _⟩
    cases phrase
    exact ⟨_, _, rfl, by simp [Keyword.token]⟩

theorem extendWord_of_takes {t : Located} {ws : List Word} {e : ExtendBlock}
    (takes : Takes (t :: ts) ws rest) (phrase : IsExtend ws e) :
    t.token = Keyword.extendWord.token := by
  cases phrase
  exact token_of_takes takes

theorem reads_extendBlock_iff {e : ExtendBlock} (proper : ending.IsProper) :
    Reads (extendBlock budget) ending ts e rest ↔
      ∃ ws, Takes ts ws rest ∧ IsExtend ws e ∧ e.depth ≤ budget := by
  simp only [extendBlock, reads_bind_iff, reads_expectKeyword_iff proper, reads_ident_iff proper,
    reads_expect_iff proper, reads_extendStatements_iff proper, reads_accept_iff]
  constructor
  · rintro ⟨start, _, ⟨rfl, word⟩, target, _, ⟨d, takesTarget⟩, _, _, ⟨d', opened⟩, statements, _,
      ⟨⟨ws, takes, row, depth⟩, _⟩, _, _, ⟨d'', closed⟩, made, rfl⟩
    exact ⟨_, takes_cons_cons_iff.mpr ⟨Located.word_eq_iff.mpr ⟨word, rfl⟩,
      takesTarget.trans (opened.trans (takes.trans closed))⟩, .intro row made,
      (ExtendBlock.depth_le_iff made).mpr depth⟩
  · rintro ⟨_, takes, phrase, depth⟩
    cases phrase with
    | @intro _ _ _ _ _ statements _ _ row made =>
      obtain ⟨start, _, rfl, word, behind⟩ := takes_cons_iff.mp takes
      obtain ⟨here, rfl⟩ := Located.word_eq_iff.mp word
      obtain ⟨_, takesTarget, behind⟩ := takes_head_iff.mp behind
      obtain ⟨_, opened, behind⟩ := takes_head_iff.mp behind
      obtain ⟨_, takes, closed⟩ := takes_append_iff.mp behind
      have fits := (ExtendBlock.depth_le_iff made).mp depth
      exact ⟨start, _, ⟨rfl, here⟩, _, _, ⟨_, takesTarget⟩, ⟨⟩, _, ⟨_, opened⟩, _, _,
        ⟨⟨_, takes, row, fits⟩, closed.sees rfl⟩, ⟨⟩, _, ⟨_, closed⟩, made, rfl⟩

/-! ### Enums -/

private theorem reads_enumValue_iff {t : Located} {v : EnumValue} (proper : ending.IsProper)
    (other : t.token ≠ Keyword.optionWord.token) :
    Reads (enumValue budget) ending (t :: ts) v rest ↔
      ∃ ws, Takes (t :: ts) ws rest ∧ IsEnumValue ws v ∧ v.depth ≤ budget := by
  have brackets := accepts_bracketOptions budget proper
  simp only [enumValue, reads_bind_iff, reads_peek_iff, front?_cons, Option.some.injEq,
    reads_plainName_iff proper, reads_expect_iff proper, reads_int_iff proper, reads_accept_iff]
  constructor
  · rintro ⟨_, _, ⟨rfl, rfl⟩, name, _, ⟨plain, d, takesName⟩, _, _, ⟨d', equals⟩, tag, _,
      ⟨d'', takesTag⟩, options, _, reads, _, _, ⟨e, closed⟩, made, rfl⟩
    obtain ⟨ws, takes, phrase, depth⟩ := brackets.sound reads
    obtain ⟨word, _⟩ := takes_cons_cons_iff.mp takesName
    obtain ⟨here, rfl⟩ := Located.word_eq_iff.mp word
    -- An identifier spelled like the keyword would have been read as an option.
    have differs : name ≠ Keyword.optionWord.spelling := fun same => other (here.trans (same ▸ rfl))
    exact ⟨_, takesName.trans (equals.trans (takesTag.trans (takes.trans closed))),
      .intro plain differs phrase made, (EnumValue.depth_le_iff made).mpr depth⟩
  · rintro ⟨_, takes, phrase, depth⟩
    cases phrase with
    | @intro _ _ _ _ _ _ options _ _ plain _ phrase made =>
      obtain ⟨_, takesName, behind⟩ := takes_head_iff.mp takes
      obtain ⟨word, _⟩ := takes_cons_cons_iff.mp takesName
      obtain ⟨_, rfl⟩ := Located.word_eq_iff.mp word
      obtain ⟨_, equals, behind⟩ := takes_head_iff.mp behind
      obtain ⟨_, takesTag, behind⟩ := takes_head_iff.mp behind
      obtain ⟨_, takes, closed⟩ := takes_append_iff.mp behind
      have fits := (EnumValue.depth_le_iff made).mp depth
      have reads := brackets.complete takes ⟨phrase, fits⟩ (closed.sees (by simp))
      exact ⟨t, _, ⟨rfl, rfl⟩, _, _, ⟨plain, _, takesName⟩, ⟨⟩, _, ⟨_, equals⟩, _, _, ⟨_, takesTag⟩,
        _, _, reads, ⟨⟩, rest, ⟨_, closed⟩, made, rfl⟩

private def IsEnumPart (budget : Nat) (ws : List Word) (s : EnumStatement) : Prop :=
  (∃ st, s = .option st ∧ IsOptionStatement ws st ∧ st.depth ≤ budget) ∨
    ∃ v, s = .value v ∧ IsEnumValue ws v ∧ v.depth ≤ budget

private theorem isEnumStatement_iff {ws : List Word} {s : EnumStatement} :
    IsStatement .empty (IsEnumPart budget) ws s ↔
      IsEnumStatement ws s ∧ (∀ st, s.option? = some st → st.depth ≤ budget) ∧
        ∀ v, s.value? = some v → v.depth ≤ budget := by
  constructor
  · rintro (⟨rfl, d, rfl⟩ | ⟨st, rfl, phrase, depth⟩ | ⟨v, rfl, phrase, depth⟩)
    · exact ⟨.empty, by simp [EnumStatement.option?, EnumStatement.value?]⟩
    · exact ⟨.option phrase, by simpa [EnumStatement.option?, EnumStatement.value?] using depth⟩
    · exact ⟨.value phrase, by simpa [EnumStatement.option?, EnumStatement.value?] using depth⟩
  · rintro ⟨phrase, options, values⟩
    cases phrase with
    | empty => exact .inl ⟨rfl, _, rfl⟩
    | option phrase => exact .inr (.inl ⟨_, rfl, phrase, options _ rfl⟩)
    | value phrase => exact .inr (.inr ⟨_, rfl, phrase, values _ rfl⟩)

/-- An option statement begins with its keyword. -/
theorem optionWord_of_takes {t : Located} {ws : List Word} {s : Setting}
    (takes : Takes (t :: ts) ws rest) (phrase : IsOptionStatement ws s) :
    t.token = Keyword.optionWord.token := by
  cases phrase
  exact token_of_takes takes

/-- An enum value begins with a name that is no keyword of options. -/
private theorem ident_of_takes_isEnumValue {t : Located} {ws : List Word} {v : EnumValue}
    (takes : Takes (t :: ts) ws rest) (phrase : IsEnumValue ws v) :
    ∃ name, t.token = .ident name ∧ name ≠ Keyword.optionWord.spelling := by
  cases phrase with
  | intro _ differs _ _ =>
    exact ⟨_, token_of_takes takes, differs⟩

private theorem reads_enumStatements_iff {statements : List EnumStatement}
    (proper : ending.IsProper) :
    Reads (many (enumStatement budget)) ending ts statements rest ↔
      (∃ ws, Takes ts ws rest ∧ IsSequence IsEnumStatement ws statements ∧
        (∀ s ∈ statements.filterMap EnumStatement.option?, s.depth ≤ budget) ∧
        ∀ v ∈ statements.filterMap EnumStatement.value?, v.depth ≤ budget) ∧
        Sees (· = .mark .closeBrace) ending rest := by
  simp only [List.forall_mem_filterMap, ← forall_and, ← IsSequence.and_iff, ← isEnumStatement_iff]
  refine IsStatementReader.reads_many_iff ⟨?_, ?_, ?_, ?_, by simp, ?_⟩ proper
  · intro t closes
    simp [closes]
  · intro t skips
    simp [skips]
  · intro t ts rest o _ _
    split
    next => contradiction
    next => contradiction
    next =>
      split
      next isOption =>
        have word := Token.keyword?_eq_some_iff.mp isOption
        rw [reads_optionWord_iff proper word]
        constructor
        · rintro ⟨s, rfl, ws, takes, phrase, depth⟩
          exact ⟨_, rfl, ws, takes, .inl ⟨s, rfl, phrase, depth⟩⟩
        · rintro ⟨_, rfl, ws, takes, ⟨s, rfl, phrase, depth⟩ | ⟨v, rfl, phrase, _⟩⟩
          · exact ⟨s, rfl, ws, takes, phrase, depth⟩
          · obtain ⟨name, here, differs⟩ := ident_of_takes_isEnumValue takes phrase
            exact absurd (Token.ident.inj (here.symm.trans word)) differs
      next other =>
        have differs : t.token ≠ Keyword.optionWord.token :=
          fun word => other (Token.keyword?_eq_some_iff.mpr word)
        simp only [reads_bind_iff, reads_enumValue_iff proper differs, reads_pure_iff]
        constructor
        · rintro ⟨v, _, ⟨ws, takes, phrase, depth⟩, rfl, rfl⟩
          exact ⟨_, rfl, ws, takes, .inr ⟨v, rfl, phrase, depth⟩⟩
        · rintro ⟨_, rfl, ws, takes, ⟨s, rfl, phrase, _⟩ | ⟨v, rfl, phrase, depth⟩⟩
          · exact absurd (optionWord_of_takes takes phrase) differs
          · exact ⟨v, rest, ⟨ws, takes, phrase, depth⟩, rfl, rfl⟩
    next noIdent =>
      refine ⟨fun h => absurd h not_reads_unexpected, ?_⟩
      rintro ⟨_, rfl, ws, takes, ⟨s, rfl, phrase, _⟩ | ⟨v, rfl, phrase, _⟩⟩
      · exact absurd (optionWord_of_takes takes phrase) (noIdent _)
      · obtain ⟨name, here, _⟩ := ident_of_takes_isEnumValue takes phrase
        exact absurd here (noIdent name)
  · intro t o rest atEnd _
    simp [atEnd]
  · rintro ws _ (⟨s, rfl, phrase, _⟩ | ⟨v, rfl, phrase, _⟩)
    · cases phrase
      exact ⟨_, _, rfl, by simp [Keyword.token]⟩
    · cases phrase
      exact ⟨_, _, rfl, by simp⟩

theorem enumWord_of_takes {t : Located} {ws : List Word} {e : EnumType}
    (takes : Takes (t :: ts) ws rest) (phrase : IsEnum scope ws e) :
    t.token = Keyword.enumWord.token := by
  cases phrase
  exact token_of_takes takes

theorem reads_enumType_iff {scope : Scope} {e : EnumType} (proper : ending.IsProper) :
    Reads (enumType budget scope) ending ts e rest ↔
      ∃ ws, Takes ts ws rest ∧ IsEnum scope ws e ∧ e.depth ≤ budget := by
  simp only [enumType, reads_bind_iff, reads_expectKeyword_iff proper, reads_plainName_iff proper,
    reads_expect_iff proper, reads_enumStatements_iff proper, reads_accept_iff]
  constructor
  · rintro ⟨start, _, ⟨rfl, word⟩, name, _, ⟨plain, d, takesName⟩, _, _, ⟨d', opened⟩, statements, _,
      ⟨⟨ws, takes, row, options, values⟩, _⟩, _, _, ⟨d'', closed⟩, made, rfl⟩
    exact ⟨_, takes_cons_cons_iff.mpr ⟨Located.word_eq_iff.mpr ⟨word, rfl⟩,
      takesName.trans (opened.trans (takes.trans closed))⟩, .intro plain row made,
      (EnumType.depth_le_iff made).mpr ⟨values, options⟩⟩
  · rintro ⟨_, takes, phrase, depth⟩
    cases phrase with
    | @intro _ _ _ _ _ statements _ _ plain row made =>
      obtain ⟨start, _, rfl, word, behind⟩ := takes_cons_iff.mp takes
      obtain ⟨here, rfl⟩ := Located.word_eq_iff.mp word
      obtain ⟨_, takesName, behind⟩ := takes_head_iff.mp behind
      obtain ⟨_, opened, behind⟩ := takes_head_iff.mp behind
      obtain ⟨_, takes, closed⟩ := takes_append_iff.mp behind
      obtain ⟨values, options⟩ := (EnumType.depth_le_iff made).mp depth
      exact ⟨start, _, ⟨rfl, here⟩, _, _, ⟨plain, _, takesName⟩, ⟨⟩, _, ⟨_, opened⟩, _, _,
        ⟨⟨_, takes, row, options, values⟩, closed.sees rfl⟩, ⟨⟩, _, ⟨_, closed⟩, made, rfl⟩

/-! ### Methods -/

private def IsRpcOption (budget : Nat) (ws : List Word) (s : RpcStatement) : Prop :=
  ∃ st, s = .option st ∧ IsOptionStatement ws st ∧ st.depth ≤ budget

private theorem isRpcStatement_iff {ws : List Word} {s : RpcStatement} :
    IsStatement .empty (IsRpcOption budget) ws s ↔
      IsRpcStatement ws s ∧ ∀ st, s.option? = some st → st.depth ≤ budget := by
  constructor
  · rintro (⟨rfl, d, rfl⟩ | ⟨st, rfl, phrase, depth⟩)
    · exact ⟨.empty, by simp [RpcStatement.option?]⟩
    · exact ⟨.option phrase, by simpa [RpcStatement.option?] using depth⟩
  · rintro ⟨phrase, depth⟩
    cases phrase with
    | empty => exact .inl ⟨rfl, _, rfl⟩
    | option phrase => exact .inr ⟨_, rfl, phrase, depth _ rfl⟩

theorem reads_rpcStatements_iff {statements : List RpcStatement}
    (proper : ending.IsProper) :
    Reads (many (rpcStatement budget)) ending ts statements rest ↔
      (∃ ws, Takes ts ws rest ∧ IsSequence IsRpcStatement ws statements ∧
        ∀ s ∈ statements.filterMap RpcStatement.option?, s.depth ≤ budget) ∧
        Sees (· = .mark .closeBrace) ending rest := by
  simp only [List.forall_mem_filterMap, ← IsSequence.and_iff, ← isRpcStatement_iff]
  refine IsStatementReader.reads_many_iff ⟨?_, ?_, ?_, ?_, by simp, ?_⟩ proper
  · intro t closes
    simp [closes]
  · intro t skips
    simp [skips]
  · intro t ts rest o _ _
    split
    next => contradiction
    next => contradiction
    next =>
      split
      next isOption =>
        rw [reads_optionWord_iff proper (Token.keyword?_eq_some_iff.mp isOption)]
        constructor
        · rintro ⟨s, rfl, ws, takes, phrase, depth⟩
          exact ⟨_, rfl, ws, takes, s, rfl, phrase, depth⟩
        · rintro ⟨_, rfl, ws, takes, s, rfl, phrase, depth⟩
          exact ⟨s, rfl, ws, takes, phrase, depth⟩
      next other =>
        refine ⟨fun h => absurd h not_reads_unexpected, ?_⟩
        rintro ⟨_, rfl, ws, takes, s, rfl, phrase, depth⟩
        exact absurd (Token.keyword?_eq_some_iff.mpr (optionWord_of_takes takes phrase)) other
  · intro t o rest atEnd _
    simp [atEnd, Token.keyword?]
  · rintro ws _ ⟨s, rfl, phrase, _⟩
    cases phrase
    exact ⟨_, _, rfl, by simp [Keyword.token]⟩

/-- Whatever is read as the end of a method is one. -/
private theorem exists_isRpcEnd_of_reads {options : List Setting} (proper : ending.IsProper)
    (h : Reads (rpcOptions budget) ending ts options rest) :
    ∃ ws, Takes ts ws rest ∧ IsRpcEnd ws options ∧ ∀ s ∈ options, s.depth ≤ budget := by
  simp only [rpcOptions, reads_ifEat_iff proper, reads_bind_iff, reads_rpcStatements_iff proper,
    reads_expect_iff proper, reads_discard_iff, reads_eat_iff proper, reads_pure_iff] at h
  rcases h with ⟨d, _, opened, statements, _, ⟨⟨ws, takes, row, depth⟩, _⟩, _, _, ⟨d', closed⟩, _, _,
    ⟨_, ⟨_, d'', behind⟩ | ⟨_, rfl, _⟩⟩, rfl, rfl⟩ | ⟨_, _, _, ⟨d, takes⟩, rfl, rfl⟩
  · exact ⟨_, opened.trans (takes.trans (closed.trans behind)), .both row, depth⟩
  · exact ⟨_, opened.trans (takes.trans closed), .braces row, depth⟩
  · exact ⟨_, takes, .semicolon, by simp⟩

/-- The end of a method is read, perhaps with a semicolon that stands behind it. -/
private theorem reads_rpcOptions_of {ws : List Word} {options : List Setting}
    (proper : ending.IsProper) (takes : Takes ts ws rest) (phrase : IsRpcEnd ws options)
    (depth : ∀ s ∈ options, s.depth ≤ budget) (more : Sees (fun _ => True) ending rest) :
    Reads (rpcOptions budget) ending ts options rest ∨
      ∃ d behind, Takes rest [⟨.mark .semicolon, d⟩] behind ∧
        Reads (rpcOptions budget) ending ts options behind := by
  simp only [rpcOptions, reads_ifEat_iff proper, reads_bind_iff, reads_rpcStatements_iff proper,
    reads_expect_iff proper, reads_discard_iff, reads_eat_iff proper, reads_pure_iff]
  cases phrase with
  | semicolon => exact .inl (.inr ⟨takes.sees (by simp), ⟨⟩, rest, ⟨_, takes⟩, rfl, rfl⟩)
  | both row =>
    obtain ⟨_, opened, takes⟩ := takes_head_iff.mp takes
    obtain ⟨_, takes, closed⟩ := takes_append_iff.mp takes
    obtain ⟨_, closed, behind⟩ := takes_head_iff.mp closed
    exact .inl (.inl ⟨_, _, opened, _, _, ⟨⟨_, takes, row, depth⟩, closed.sees rfl⟩, ⟨⟩, _,
      ⟨_, closed⟩, ⟨⟩, rest, ⟨true, .inl ⟨rfl, _, behind⟩⟩, rfl, rfl⟩)
  | braces row =>
    obtain ⟨_, opened, takes⟩ := takes_head_iff.mp takes
    obtain ⟨_, takes, closed⟩ := takes_append_iff.mp takes
    obtain ⟨t, seen, _⟩ := more
    -- A semicolon behind the brace is taken along, although the grammar may count it as a
    -- statement.
    by_cases semicolon : t.token = .mark .semicolon
    · have behind : Takes rest [⟨.mark .semicolon, docOf t⟩] rest.tail := takes_single_iff.mpr
        ⟨t, eq_cons_of_front? proper seen (by simp [semicolon]),
          Located.word_eq_iff.mpr ⟨semicolon, rfl⟩⟩
      exact .inr ⟨_, rest.tail, behind, .inl ⟨_, _, opened, _, _,
        ⟨⟨_, takes, row, depth⟩, closed.sees rfl⟩, ⟨⟩, _, ⟨_, closed⟩, ⟨⟩, rest.tail,
        ⟨true, .inl ⟨rfl, _, behind⟩⟩, rfl, rfl⟩⟩
    · exact .inl (.inl ⟨_, _, opened, _, _, ⟨⟨_, takes, row, depth⟩, closed.sees rfl⟩, ⟨⟩, rest,
        ⟨_, closed⟩, ⟨⟩, rest, ⟨false, .inr ⟨rfl, rfl, t, seen, semicolon⟩⟩, rfl, rfl⟩)

theorem reads_rpc_iff {m : Method} (proper : ending.IsProper) :
    Reads (rpc budget) ending ts m rest ↔
      ∃ hs mid name doc request response options, IsRpcHead hs name doc request response ∧
        Takes ts hs mid ∧ Reads (rpcOptions budget) ending mid options rest ∧
        Method.make name doc request response options = .ok m := by
  simp only [rpc, reads_bind_iff, reads_expectKeyword_iff proper, reads_plainName_iff proper,
    reads_expect_iff proper, reads_ident_iff proper, reads_discard_iff, reads_accept_iff]
  constructor
  · rintro ⟨start, _, ⟨rfl, word⟩, name, _, ⟨plain, d, takesName⟩, _, _, ⟨d', opened⟩, request, _,
      ⟨d'', takesRequest⟩, _, _, ⟨e, closed⟩, _, _, ⟨returns, rfl, returnsWord⟩, _, _, ⟨e', opened'⟩,
      response, _, ⟨e'', takesResponse⟩, _, mid, ⟨c, closed'⟩, options, _, reads, made, rfl⟩
    have answer := takes_cons_cons_iff.mpr ⟨Located.word_eq_iff.mpr ⟨returnsWord, rfl⟩,
      opened'.trans (takesResponse.trans closed')⟩
    have head := takes_cons_cons_iff.mpr ⟨Located.word_eq_iff.mpr ⟨word, rfl⟩,
      takesName.trans (opened.trans (takesRequest.trans (closed.trans answer)))⟩
    exact ⟨_, mid, name, docOf start, request, response, options, .intro plain, head, reads, made⟩
  · rintro ⟨_, mid, name, doc, request, response, options, head, takes, reads, made⟩
    cases head with
    | intro plain =>
      obtain ⟨start, _, rfl, word, behind⟩ := takes_cons_iff.mp takes
      obtain ⟨here, rfl⟩ := Located.word_eq_iff.mp word
      obtain ⟨_, takesName, behind⟩ := takes_head_iff.mp behind
      obtain ⟨_, opened, behind⟩ := takes_head_iff.mp behind
      obtain ⟨_, takesRequest, behind⟩ := takes_head_iff.mp behind
      obtain ⟨_, closed, behind⟩ := takes_head_iff.mp behind
      obtain ⟨returns, _, rfl, word', behind⟩ := takes_cons_iff.mp behind
      obtain ⟨returnsWord, _⟩ := Located.word_eq_iff.mp word'
      obtain ⟨_, opened', behind⟩ := takes_head_iff.mp behind
      obtain ⟨_, takesResponse, closed'⟩ := takes_head_iff.mp behind
      exact ⟨start, _, ⟨rfl, here⟩, name, _, ⟨plain, _, takesName⟩, ⟨⟩, _, ⟨_, opened⟩, request, _,
        ⟨_, takesRequest⟩, ⟨⟩, _, ⟨_, closed⟩, ⟨⟩, _, ⟨returns, rfl, returnsWord⟩, ⟨⟩, _, ⟨_, opened'⟩,
        response, _, ⟨_, takesResponse⟩, ⟨⟩, _, ⟨_, closed'⟩, options, _, reads, made, rfl⟩

/-- Whatever is read as a method is one. -/
private theorem exists_isRpc_of_reads {m : Method} (proper : ending.IsProper)
    (h : Reads (rpc budget) ending ts m rest) :
    ∃ ws, Takes ts ws rest ∧ IsRpc ws m ∧ m.depth ≤ budget := by
  obtain ⟨hs, mid, _, _, _, _, options, head, takes, reads, made⟩ := (reads_rpc_iff proper).mp h
  obtain ⟨ws, takes', phrase, depth⟩ := exists_isRpcEnd_of_reads proper reads
  exact ⟨_, takes.trans takes', .intro head phrase made, (Method.depth_le_iff made).mpr depth⟩

/-- A method is read, perhaps with a semicolon that stands behind it. -/
private theorem reads_rpc_of {ws : List Word} {m : Method} (proper : ending.IsProper)
    (takes : Takes ts ws rest) (phrase : IsRpc ws m) (depth : m.depth ≤ budget)
    (more : Sees (fun _ => True) ending rest) :
    Reads (rpc budget) ending ts m rest ∨
      ∃ d behind, Takes rest [⟨.mark .semicolon, d⟩] behind ∧
        Reads (rpc budget) ending ts m behind := by
  cases phrase with
  | intro head phrase made =>
    have fits := (Method.depth_le_iff made).mp depth
    obtain ⟨mid, takes, takes'⟩ := takes_append_iff.mp takes
    simp only [reads_rpc_iff proper]
    rcases reads_rpcOptions_of proper takes' phrase fits more with reads | ⟨d, behind, semicolon, reads⟩
    · exact .inl ⟨_, mid, _, _, _, _, _, head, takes, reads, made⟩
    · exact .inr ⟨d, behind, semicolon, _, mid, _, _, _, _, _, head, takes, reads, made⟩

/-! ### Services -/

/-- The depth of a statement of a service is within a budget. -/
private def FitsService (budget : Nat) (s : ServiceStatement) : Prop :=
  (∀ st, s.option? = some st → st.depth ≤ budget) ∧ ∀ m, s.method? = some m → m.depth ≤ budget

/-- A statement of a service or its end. -/
private theorem serviceStatement_cases {o : Option ServiceStatement} (proper : ending.IsProper)
    (h : Reads (serviceStatement budget) ending ts o rest) :
    (o = none ∧ ts = rest ∧ Sees (· = .mark .closeBrace) ending ts) ∨
      (∃ d, o = some .empty ∧ Takes ts [⟨.mark .semicolon, d⟩] rest) ∨
      ∃ s ws, o = some s ∧ Takes ts ws rest ∧ IsServiceStatement ws s ∧ FitsService budget s := by
  simp only [serviceStatement, reads_bind_iff, reads_peek_iff] at h
  obtain ⟨t, _, ⟨seen, rfl⟩, h⟩ := h
  split at h
  next closes =>
    obtain ⟨rfl, rfl⟩ := reads_pure_iff.mp h
    exact .inl ⟨rfl, rfl, t, seen, closes⟩
  next skips =>
    have whole := eq_cons_of_front? proper seen (by simp [skips])
    rw [whole] at h
    simp only [reads_bind_iff, reads_discard_iff, reads_next_iff, reads_pure_iff] at h
    obtain ⟨_, _, ⟨_, _, rfl⟩, rfl, rfl⟩ := h
    exact .inr (.inl ⟨docOf t, rfl,
      takes_single_iff.mpr ⟨t, whole, Located.word_eq_iff.mpr ⟨skips, rfl⟩⟩⟩)
  next =>
    split at h
    next isOption =>
      have word := Token.keyword?_eq_some_iff.mp isOption
      rw [eq_cons_of_front? proper seen (by simp [word, Keyword.token])] at h ⊢
      obtain ⟨s, rfl, ws, takes, phrase, depth⟩ := (reads_optionWord_iff proper word).mp h
      exact .inr (.inr ⟨_, ws, rfl, takes, .option phrase,
        by simpa [FitsService, ServiceStatement.option?, ServiceStatement.method?] using depth⟩)
    next isRpc =>
      simp only [reads_bind_iff, reads_pure_iff] at h
      obtain ⟨m, _, reads, rfl, rfl⟩ := h
      obtain ⟨ws, takes, phrase, depth⟩ := exists_isRpc_of_reads proper reads
      exact .inr (.inr ⟨_, ws, rfl, takes, .method phrase,
        by simpa [FitsService, ServiceStatement.option?, ServiceStatement.method?] using depth⟩)
    next => exact absurd h not_reads_unexpected

private theorem reads_serviceStatement_empty {d : String}
    (takes : Takes ts [⟨.mark .semicolon, d⟩] rest) :
    Reads (serviceStatement budget) ending ts (some .empty) rest := by
  obtain ⟨t, rfl, word⟩ := takes_single_iff.mp takes
  obtain ⟨skips, _⟩ := Located.word_eq_iff.mp word
  rw [serviceStatement, reads_peek_bind_iff]
  simp [skips]

private theorem reads_serviceStatement_option {ws : List Word} {s : Setting}
    (proper : ending.IsProper) (takes : Takes ts ws rest) (phrase : IsOptionStatement ws s)
    (depth : s.depth ≤ budget) :
    Reads (serviceStatement budget) ending ts (some (.option s)) rest := by
  have ⟨t, seen, word⟩ : Sees (· = Keyword.optionWord.token) ending ts := by
    cases phrase
    exact takes.sees rfl
  rw [eq_cons_of_front? proper seen (by simp [word, Keyword.token])] at takes ⊢
  rw [serviceStatement, reads_peek_bind_iff]
  simp only [word, Keyword.token, Token.keyword?, Keyword.ofSpelling?_spelling]
  exact (reads_optionWord_iff proper word).mpr ⟨s, rfl, ws, takes, phrase, depth⟩

private theorem reads_serviceStatement_method {ws : List Word} {m : Method} {mid : List Located}
    (proper : ending.IsProper) (takes : Takes ts ws mid) (phrase : IsRpc ws m)
    (reads : Reads (rpc budget) ending ts m rest) :
    Reads (serviceStatement budget) ending ts (some (.method m)) rest := by
  have ⟨t, seen, word⟩ : Sees (· = Keyword.rpcWord.token) ending ts := by
    cases phrase with
    | intro head =>
      cases head
      exact takes.sees rfl
  rw [eq_cons_of_front? proper seen (by simp [word, Keyword.token])] at reads ⊢
  rw [serviceStatement, reads_peek_bind_iff]
  simp only [word, Keyword.token, Token.keyword?, Keyword.ofSpelling?_spelling]
  exact reads_bind_iff.mpr ⟨m, rest, reads, reads_pure_iff.mpr ⟨rfl, rfl⟩⟩

/-- Statements of a service are read, but a semicolon behind a method belongs to the method. -/
private theorem exists_reads_serviceStatements {ws : List Word} {statements : List ServiceStatement}
    (proper : ending.IsProper) (takes : Takes ts ws rest)
    (row : IsSequence IsServiceStatement ws statements)
    (fits : ∀ s ∈ statements, FitsService budget s)
    (closes : Sees (· = .mark .closeBrace) ending rest) :
    ∃ statements', Reads (many (serviceStatement budget)) ending ts statements' rest ∧
      statements'.filterMap ServiceStatement.option? =
        statements.filterMap ServiceStatement.option? ∧
      statements'.filterMap ServiceStatement.method? =
        statements.filterMap ServiceStatement.method? := by
  induction row generalizing ts with
  | nil =>
    obtain rfl := takes_nil_iff.mp takes
    obtain ⟨t, seen, closed⟩ := closes
    refine ⟨[], reads_many_nil_iff.mpr ?_, rfl, rfl⟩
    rw [eq_cons_of_front? proper seen (by simp [closed]), serviceStatement, reads_peek_bind_iff]
    simp [closed]
  | @cons first behind s statements phrase row ih =>
    obtain ⟨mid, takes, takes'⟩ := takes_append_iff.mp takes
    obtain ⟨statements', reads, options, methods⟩ :=
      ih takes' fun s member => fits s (List.mem_cons_of_mem _ member)
    obtain ⟨option, method⟩ := fits s List.mem_cons_self
    cases phrase with
    | empty =>
      exact ⟨_, reads_many_cons_of (reads_serviceStatement_empty takes) (takes.length_lt (by simp))
        reads, options, methods⟩
    | option phrase =>
      have one := reads_serviceStatement_option proper takes phrase (option _ rfl)
      refine ⟨_, reads_many_cons_of one (takes.length_lt ?_) reads, ?_, methods⟩
      · cases phrase; simp
      · simp [ServiceStatement.option?, options]
    | @method m _ phrase =>
      have nonempty : first ≠ [] := by
        cases phrase with
        | intro head => cases head; simp
      have more : Sees (fun _ => True) ending mid := by
        cases behind with
        | nil => exact takes_nil_iff.mp takes' ▸ closes.mono fun _ _ => trivial
        | cons => exact takes'.sees trivial
      rcases reads_rpc_of proper takes phrase (method _ rfl) more with one | ⟨d, mid', semicolon, one⟩
      · have one := reads_serviceStatement_method proper takes phrase one
        refine ⟨_, reads_many_cons_of one (takes.length_lt nonempty) reads, options, ?_⟩
        simp [ServiceStatement.method?, methods]
      · -- The rest begins with an empty statement, whose semicolon the method has taken.
        have skipped : Reads (serviceStatement budget) ending mid (some .empty) mid' :=
          reads_serviceStatement_empty semicolon
        have one := reads_serviceStatement_method proper takes phrase one
        cases statements' with
        | nil => cases (skipped.unique (reads_many_nil_iff.mp reads)).1
        | cons s' statements' =>
          obtain ⟨_, reads', rest'⟩ := exists_of_reads_many_cons (fun _ reads' => by
            obtain ⟨_, rfl⟩ := skipped.unique reads'
            exact semicolon.length_lt (by simp)) reads
          obtain ⟨same, rfl⟩ := skipped.unique reads'
          cases same
          have shorter := Nat.lt_trans (semicolon.length_lt (by simp)) (takes.length_lt nonempty)
          refine ⟨_, reads_many_cons_of one shorter rest', options, ?_⟩
          simpa [List.filterMap_cons, ServiceStatement.method?] using methods

/-- Whatever is read as statements of a service are such statements. -/
private theorem exists_isSequence_of_reads {statements : List ServiceStatement}
    (proper : ending.IsProper)
    (h : Reads (many (serviceStatement budget)) ending ts statements rest) :
    ∃ ws, Takes ts ws rest ∧ IsSequence IsServiceStatement ws statements ∧
      ∀ s ∈ statements, FitsService budget s := by
  simp only [← IsSequence.and_iff]
  refine (exists_of_reads_many (fun ws s => IsServiceStatement ws s ∧ FitsService budget s)
    (fun ts rest => ts = rest) ?_ ?_ ?_ h).elim ?_
  · intro ts s rest reads
    rcases serviceStatement_cases proper reads with ⟨same, _⟩ | ⟨d, same, takes⟩ |
      ⟨_, ws, same, takes, phrase, fits⟩
    · cases same
    · cases same
      exact ⟨_, takes, .empty, by simp [FitsService, ServiceStatement.option?,
        ServiceStatement.method?]⟩
    · cases same
      exact ⟨ws, takes, phrase, fits⟩
  · rintro ws s ⟨phrase, _⟩
    cases phrase with
    | empty => simp
    | option phrase => cases phrase; simp
    | method phrase =>
      cases phrase with
      | intro head => cases head; simp
  · intro ts rest reads
    rcases serviceStatement_cases proper reads with ⟨_, same, _⟩ | ⟨d, same, _⟩ | ⟨_, _, same, _⟩
    · exact same
    · cases same
    · cases same
  · rintro ws ⟨_, takes, row, rfl⟩
    exact ⟨ws, takes, row⟩

theorem serviceWord_of_takes {t : Located} {ws : List Word} {s : Service}
    (takes : Takes (t :: ts) ws rest) (phrase : IsService scope ws s) :
    t.token = Keyword.serviceWord.token := by
  cases phrase
  exact token_of_takes takes

theorem reads_service_iff {scope : Scope} {s : Service} (proper : ending.IsProper) :
    Reads (service budget scope) ending ts s rest ↔
      ∃ ws, Takes ts ws rest ∧ IsService scope ws s ∧ s.depth ≤ budget := by
  simp only [service, reads_bind_iff, reads_expectKeyword_iff proper, reads_plainName_iff proper,
    reads_expect_iff proper, reads_accept_iff]
  constructor
  · rintro ⟨start, _, ⟨rfl, word⟩, name, _, ⟨plain, d, takesName⟩, _, _, ⟨d', opened⟩, statements, _,
      reads, _, _, ⟨d'', closed⟩, made, rfl⟩
    obtain ⟨ws, takes, row, fits⟩ := exists_isSequence_of_reads proper reads
    refine ⟨_, takes_cons_cons_iff.mpr ⟨Located.word_eq_iff.mpr ⟨word, rfl⟩,
      takesName.trans (opened.trans (takes.trans closed))⟩, .intro plain row made, ?_⟩
    simp only [Service.depth_le_iff made, List.forall_mem_filterMap]
    exact ⟨fun s member => (fits s member).1, fun s member => (fits s member).2⟩
  · rintro ⟨_, takes, phrase, depth⟩
    cases phrase with
    | @intro _ _ _ _ _ statements _ _ plain row made =>
      obtain ⟨start, _, rfl, word, behind⟩ := takes_cons_iff.mp takes
      obtain ⟨here, rfl⟩ := Located.word_eq_iff.mp word
      obtain ⟨_, takesName, behind⟩ := takes_head_iff.mp behind
      obtain ⟨_, opened, behind⟩ := takes_head_iff.mp behind
      obtain ⟨_, takes, closed⟩ := takes_append_iff.mp behind
      simp only [Service.depth_le_iff made, List.forall_mem_filterMap] at depth
      obtain ⟨statements', reads, options, methods⟩ := exists_reads_serviceStatements proper takes row
        (fun s member => ⟨depth.1 s member, depth.2 s member⟩) (closed.sees rfl)
      refine ⟨start, _, ⟨rfl, here⟩, _, _, ⟨plain, _, takesName⟩, ⟨⟩, _, ⟨_, opened⟩, statements', _,
        reads, ⟨⟩, _, ⟨_, closed⟩, ?_, rfl⟩
      rw [options, methods]
      exact made

end ProtoSchema.Reading
