import ProtoSchema.Proofs.Reading.CountingCursor

/-!
# Every parse is a run over a cursor

Each reader runs over each cursor: it comes to an end there, with a value or a failure, by looking
at tokens one at a time and by counting what is open. Loops end because each round takes a token,
and values and messages because the count has a limit. `Halts` says so with what a reader takes, and
`Ends` without it. In the end a text is parsed by a run that begins with a cursor on the text.
-/

namespace ProtoSchema

open Reader Reading

variable {α β : Type} {room : Nat} {shown : Option Located} {t : Located}

/-- Over a cursor there is a run of a reader, and a value of some kind takes at least one token. -/
inductive HaltsOver (c : CountingCursor) (taking : α → Prop) (reader : Nat → Reader α) : Prop
  | ok {v : α} {after : CountingCursor} (run : Runs reader c (.ok (v, after)))
      (fewer : taking v → after.left < c.left) : HaltsOver c taking reader
  | error {e : ReadError} (run : Runs reader c (.error e)) : HaltsOver c taking reader

/-- A reader runs over each cursor with so many levels left, which may be known to keep a token. -/
def Halts (room : Nat) (shown : Option Located) (taking : α → Prop) (reader : Nat → Reader α) :
    Prop :=
  ∀ c : CountingCursor, c.room = room → (∀ t ∈ shown, c.peeked = some t) →
    HaltsOver c taking reader

/-- The same with nothing said about what is taken. -/
abbrev Ends (room : Nat) (shown : Option Located) (reader : Nat → Reader α) : Prop :=
  Halts room shown (fun _ => False) reader

namespace CountingCursor

variable {c after : CountingCursor} {look : Look}

theorem room_of_ask (asked : c.ask look = .ok (t, after)) : after.room = c.room := by
  rw [room, room, (ask_eq_ok asked).2]

/-- A token that was looked at is kept. -/
theorem peeked_of_peek (asked : c.ask .peek = .ok (t, after)) : after.peeked = some t := by
  have same := (ask_eq_ok asked).1
  unfold Cursor.ask at same
  split at same
  next =>
    obtain ⟨rfl, kept⟩ := Prod.mk.inj (Except.ok.inj same)
    rw [← kept, if_pos rfl]
  next =>
    split at same
    next =>
      obtain ⟨rfl, kept⟩ := Prod.mk.inj (Except.ok.inj same)
      rw [← kept, if_pos rfl]
    next => cases same

/-- A token that is kept is shown. -/
theorem exists_ask_of_peeked (look : Look) (kept : c.peeked = some t) :
    ∃ after, c.ask look = .ok (t, after) := by
  unfold ask Cursor.ask
  rw [kept]
  exact ⟨_, rfl⟩

end CountingCursor

/-! ### Ways to put readers together -/

section Combinators

variable {taking : α → Prop} {reader : Nat → Reader α} {f : α → Nat → Reader β}

theorem Halts.ends (h : Halts room shown taking reader) : Ends room shown reader := by
  intro c levels kept
  cases h c levels kept with
  | ok run _ => exact .ok run False.elim
  | error run => exact .error run

/-- What is read everywhere is read at a token that is known. -/
theorem Halts.anywhere (h : Halts room none taking reader) : Halts room shown taking reader :=
  fun c levels _ => h c levels nofun

theorem halts_pure {v : α} (free : ¬ taking v) : Halts room shown taking fun _ => pure v :=
  fun c _ _ => .ok (.pure v c) fun takes => absurd takes free

theorem halts_throw (e : ReadError) : Halts room shown taking fun _ => throw e :=
  fun c _ _ => .error (.throw e c)

theorem halts_unexpected (t : Located) (expected : Expectation) :
    Halts room shown taking fun _ => unexpected t expected :=
  halts_throw _

theorem ends_accept (position : Position) (o : Except Violation α) :
    Ends room shown fun _ => accept position o := by
  cases o with
  | ok v => exact halts_pure id
  | error broken => exact halts_throw _

/-- A token is taken by the first reader or by the second one. -/
private theorem Halts.bind_of {taking' taking'' : β → Prop} (h : Halts room shown taking reader)
    (later : ∀ v, Halts room none taking' (f v)) (imp : ∀ v w, taking'' w → taking v ∨ taking' w) :
    Halts room shown taking'' fun budget => reader budget >>= fun v => f v budget := by
  intro c levels kept
  cases h c levels kept with
  | error run => exact .error (.failed run)
  | @ok v mid run fewer =>
    cases later v mid (run.room_eq.trans levels) nofun with
    | error run' => exact .error (.bind run run')
    | @ok w after run' fewer' =>
      refine .ok (.bind run run') fun takes => ?_
      -- Neither reader gives back what the other one took.
      have first := (run.settled v mid rfl).2
      have second := (run'.settled w after rfl).2
      rcases imp v w takes with takes | takes
      · exact Nat.lt_of_le_of_lt second (fewer takes)
      · exact Nat.lt_of_lt_of_le (fewer' takes) first

theorem Halts.bind {taking : β → Prop} (h : Ends room shown reader)
    (later : ∀ v, Halts room none taking (f v)) :
    Halts room shown taking fun budget => reader budget >>= fun v => f v budget :=
  h.bind_of later fun _ _ => .inr

/-- Behind a reader that takes a token it does not matter what is taken. -/
theorem Halts.before {taking : β → Prop} (h : Halts room shown (fun _ => True) reader)
    (later : ∀ v, Ends room none (f v)) :
    Halts room shown taking fun budget => reader budget >>= fun v => f v budget :=
  h.bind_of later fun _ _ _ => .inl trivial

theorem Ends.map {g : α → β} (h : Ends room shown reader) :
    Ends room shown fun budget => g <$> reader budget := by
  simp only [← bind_pure_comp]
  exact h.bind fun _ => halts_pure id

theorem Ends.discard (h : Ends room shown reader) :
    Ends room shown fun budget => discard (reader budget) :=
  h.map

/-- A loop ends because each round takes a token. -/
theorem ends_many {item : Nat → Reader (Option α)}
    (h : Halts room none (fun o => o.isSome) item) :
    Ends room shown fun budget => many (item budget) := by
  rintro c levels -
  -- By induction on the tokens that are left, which are fewer after each round with an item.
  induction size : c.left using Nat.strong_induction_on generalizing c with
  | _ size ih =>
    cases h c levels nofun with
    | error run => exact .error (.manyFailed run)
    | @ok v mid run fewer =>
      cases v with
      | none => exact .ok (.manyNone run) False.elim
      | some v =>
        have fewer := fewer rfl
        cases ih mid.left (size ▸ fewer) mid (run.room_eq.trans levels) rfl with
        | ok more _ => exact .ok (.manySome run fewer more) False.elim
        | error failed => exact .error (.manySome run fewer failed)

/-- What is opened is read with one level less. -/
theorem Ends.nested {inside : Nat → Reader α}
    (h : ∀ inner, room = inner + 1 → Ends inner none inside) :
    Ends room shown (nested t inside) := by
  rintro c rfl _
  cases opened : c.descend t with
  | error e => exact .error (.tooDeep opened)
  | ok down =>
    obtain ⟨more, rfl⟩ := CountingCursor.exists_of_descend opened
    cases h _ (CountingCursor.room_down more) _ rfl nofun with
    | ok run _ => exact .ok (.nested opened run) False.elim
    | error run => exact .error (.nestedFailed opened run)

end Combinators

/-! ### Looks at tokens -/

section Looks

variable {taking : α → Prop} {f : Located → Nat → Reader α}

theorem halts_peek_bind (later : ∀ t, Halts room (some t) taking (f t)) :
    Halts room shown taking fun budget => peek >>= fun t => f t budget := by
  intro c levels _
  cases asked : c.ask .peek with
  | error e => exact .error (.failed (@Runs.fault .peek c e asked))
  | ok result =>
    obtain ⟨t, after⟩ := result
    have look := @Runs.shown .peek c after t asked nofun
    have whole : after.left = c.left :=
      congrArg (·.tokens.length) (CountingCursor.stream_of_peek asked)
    cases later t after ((CountingCursor.room_of_ask asked).trans levels) fun _ same =>
        Option.some.inj same ▸ CountingCursor.peeked_of_peek asked with
    | ok run fewer => exact .ok (.bind look run) (whole ▸ fewer)
    | error run => exact .error (.bind look run)

private theorem haltsOver_next {c after : CountingCursor} (asked : c.ask .next = .ok (t, after))
    (more : t.token ≠ .eof) (later : Ends c.room none (f t)) :
    HaltsOver c taking fun budget => next >>= fun t => f t budget := by
  have look := @Runs.shown .next c after t asked fun _ => more
  have taken : c.left = after.left + 1 :=
    congrArg List.length (CountingCursor.tokens_of_next asked more)
  cases later after (CountingCursor.room_of_ask asked) nofun with
  | @ok v left run _ =>
    refine .ok (.bind look run) fun _ => ?_
    rw [taken]
    exact Nat.lt_succ_of_le (run.settled v left rfl).2
  | error run => exact .error (.bind look run)

/-- A reader that begins with the next token and does not go on behind the end of the text. -/
theorem halts_next_bind (later : ∀ t, t.token ≠ .eof → Ends room none (f t))
    (refuses : ∀ t, t.token = .eof → ∃ e, ∀ budget, f t budget = throw e) :
    Halts room shown taking fun budget => next >>= fun t => f t budget := by
  rintro c rfl _
  cases asked : c.ask .next with
  | error e => exact .error (.failed (@Runs.fault .next c e asked))
  | ok result =>
    obtain ⟨t, after⟩ := result
    by_cases last : t.token = .eof
    -- Behind the end mark the lexer would give another one, but it is not asked for it.
    · obtain ⟨e, same⟩ := refuses t last
      exact .error (.atEnd asked last same)
    · exact haltsOver_next asked last (later t last)

/-- A token that is known is taken. -/
theorem halts_next_bind_of_ne (more : t.token ≠ .eof) (later : Ends room none (f t)) :
    Halts room (some t) taking fun budget => next >>= fun t => f t budget := by
  rintro c rfl kept
  obtain ⟨after, asked⟩ := CountingCursor.exists_ask_of_peeked .next (kept t rfl)
  exact haltsOver_next asked more later

theorem halts_discard_next_bind {reader : Nat → Reader α} (more : t.token ≠ .eof)
    (later : Ends room none reader) :
    Halts room (some t) taking fun budget => discard next >>= fun _ => reader budget := by
  have same budget : (discard next >>= fun _ => reader budget) = next >>= fun _ => reader budget :=
    bind_map_left _ _ _
  simp only [same]
  exact halts_next_bind_of_ne more later

end Looks

/-! ### Single tokens -/

section Tokens

private theorem ne_eof_of_keyword? {token : Token} {k : Keyword} (word : token.keyword? = some k) :
    token ≠ .eof := by
  rintro rfl
  cases word

theorem ends_eat (m : Mark) : Ends room shown fun _ => eat m := by
  apply halts_peek_bind
  intro t
  split
  next same => exact halts_discard_next_bind (by simp [same]) (halts_pure id)
  next => exact halts_pure id

theorem ends_eatKeyword (k : Keyword) : Ends room shown fun _ => eatKeyword k := by
  apply halts_peek_bind
  intro t
  split
  next word => exact halts_discard_next_bind (ne_eof_of_keyword? word) (halts_pure id)
  next => exact halts_pure id

theorem halts_expect {taking : Unit → Prop} (m : Mark) :
    Halts room shown taking fun _ => expect m := by
  refine halts_next_bind (fun t _ => ?_) fun t last => ⟨_, fun _ => by rw [last, if_neg nofun]; rfl⟩
  split
  · exact halts_pure id
  · exact halts_unexpected _ _

theorem halts_expectKeyword {taking : Located → Prop} (k : Keyword) :
    Halts room shown taking fun _ => expectKeyword k := by
  refine halts_next_bind (fun t _ => ?_) fun t last => ⟨_, fun _ => by rw [last, if_neg nofun]; rfl⟩
  split
  · exact halts_pure id
  · exact halts_unexpected _ _

theorem halts_ident {taking : String → Prop} (expected : Expectation) :
    Halts room shown taking fun _ => ident expected := by
  refine halts_next_bind (fun t _ => ?_) fun t last => ⟨_, fun _ => by rw [last]; rfl⟩
  split
  · exact halts_pure id
  · exact halts_unexpected _ _

theorem halts_plainName {taking : String → Prop} (expected : Expectation) :
    Halts room shown taking fun _ => plainName expected := by
  refine halts_next_bind (fun t _ => ?_) fun t last => ⟨_, fun _ => by rw [last]; rfl⟩
  split
  · split
    · exact halts_pure id
    · exact halts_unexpected _ _
  · exact halts_unexpected _ _

theorem halts_int {taking : Int → Prop} (expected : Expectation) :
    Halts room shown taking fun _ => int expected := by
  refine halts_next_bind (fun t _ => ?_) fun t last => ⟨_, fun _ => by rw [last]; rfl⟩
  split
  · exact halts_pure id
  · exact halts_unexpected _ _

theorem halts_commaSeparated {taking : List α → Prop} {item : Nat → Reader α}
    (h : Halts room none (fun _ => True) item) :
    Halts room shown taking fun budget => commaSeparated (item budget) := by
  refine h.anywhere.before fun first => (ends_many ?_).bind fun rest => halts_pure id
  -- A round without a comma is the last one.
  apply (ends_eat .comma).bind
  intro eaten
  split
  · exact h.before fun v => halts_pure id
  · exact halts_pure nofun

theorem halts_literal {taking : List UInt8 → Prop} (expected : Expectation) :
    Halts room shown taking fun _ => literal expected := by
  refine halts_next_bind (fun t _ => ?_) fun t last => ⟨_, fun _ => by rw [last]; rfl⟩
  split
  · refine (ends_many ?_).bind fun more => halts_pure id
    -- Each further part is looked at before it is taken.
    apply halts_peek_bind
    intro t
    split
    next same => exact halts_discard_next_bind (by simp [same]) (halts_pure id)
    next => exact halts_pure nofun
  · exact halts_unexpected _ _

theorem halts_textLiteral {taking : String → Prop} (role : TextRole) :
    Halts room shown taking fun _ => textLiteral role := by
  apply halts_peek_bind
  intro t
  apply (halts_literal _).before
  intro bytes
  split
  · exact halts_pure id
  · exact halts_throw _

end Tokens

namespace Reading

/-! ### Options -/

private theorem ends_optionNameSuffixes : Ends room shown fun _ => optionNameSuffixes := by
  refine ends_many (halts_peek_bind fun t => ?_)
  split
  next same =>
    split
    · exact halts_discard_next_bind (by simp [same]) (halts_pure id)
    · exact halts_pure nofun
  next => exact halts_pure nofun

private theorem ends_parenthesizedName : Ends room shown fun _ => parenthesizedName :=
  (halts_ident _).bind fun _ => (halts_expect _).bind fun _ => halts_pure id

theorem halts_optionName {taking : String → Prop} :
    Halts room shown taking fun _ => optionName := by
  -- Whatever a name begins with, a path may follow.
  have path (base : String) : Ends room none
      fun _ => optionNameSuffixes >>= fun names => pure (base ++ String.join names) :=
    ends_optionNameSuffixes.bind fun _ => halts_pure id
  refine halts_next_bind (fun t _ => ?_) fun t last => ⟨_, fun _ => by rw [last]; rfl⟩
  split
  · exact (halts_pure id).bind path
  · exact ends_parenthesizedName.bind path
  · exact (halts_unexpected _ _).bind path

private theorem halts_mapKey {taking : String → Prop} :
    Halts room shown taking fun _ => mapKey := by
  apply (ends_eat _).bind
  intro opened
  split
  · exact (halts_ident _).before fun _ => (halts_expect _).bind fun _ => halts_pure id
  · exact halts_optionName

section Values

variable {item : Nat → Reader Value} (halts : Halts room none (fun _ => True) item)

include halts

private theorem ends_listItems : Ends room shown fun budget => listItems (item budget) := by
  apply (ends_eat _).bind
  intro eaten
  split
  · exact halts_pure id
  · exact (halts_commaSeparated halts).bind fun _ => (halts_expect _).bind fun _ => halts_pure id

private theorem ends_mapValue : Ends room shown fun budget => mapValue (item budget) := by
  apply (ends_eat _).bind
  intro eaten
  split
  · exact halts.ends
  · apply halts_peek_bind
    intro t
    split
    · exact halts.ends.anywhere
    · exact halts_unexpected _ _

private theorem ends_mapEntries (close : Mark) :
    Ends room shown fun budget => mapEntries (item budget) close := by
  refine ends_many ((ends_eat _).bind fun closed => ?_)
  split
  · exact halts_pure nofun
  -- A round that does not close the map takes a key.
  · refine halts_mapKey.before fun name => (ends_mapValue halts).bind fun v => ?_
    apply (ends_eat _).bind
    intro comma
    split
    · exact halts_pure id
    · exact (ends_eat _).discard.bind fun _ => halts_pure id

private theorem ends_bracketed (bracket : Bracket) :
    Ends room shown fun budget => bracketed (item budget) bracket := by
  cases bracket with
  | list => exact (ends_listItems halts).map
  | braces => exact (ends_mapEntries halts _).map
  | angles => exact (ends_mapEntries halts _).map

end Values

theorem halts_valueWith {taking : Value → Prop} {composite : Located → Bracket → Nat → Reader Value}
    (h : ∀ t bracket, Ends room none (composite t bracket)) :
    Halts room shown taking fun budget =>
      valueWith fun t bracket => composite t bracket budget := by
  apply halts_peek_bind
  intro t
  split
  · exact (halts_literal _).before fun _ => halts_pure id
  · refine halts_next_bind (fun t _ => ?_) fun t last => ⟨_, fun _ => by rw [last]; rfl⟩
    split
    · exact halts_pure id
    · exact halts_pure id
    · exact halts_pure id
    · split
      · exact h _ _
      · exact halts_unexpected _ _
    · exact halts_unexpected _ _

/-- The inside of a bracketed value is opened by its bracket. -/
private theorem value_eq : value = fun budget => valueWith fun t bracket =>
    nested t (fun inner => bracketed (value inner) bracket) budget := by
  funext budget
  cases budget <;> rfl

theorem halts_value {taking : Value → Prop} (room : Nat) : Halts room shown taking value := by
  induction room using Nat.strong_induction_on generalizing shown taking with
  | _ room ih =>
    -- The values inside are read with fewer levels left.
    rw [value_eq]
    exact halts_valueWith fun t bracket =>
      .nested fun inner levels => ends_bracketed (ih inner (by omega)) bracket

theorem halts_setting {taking : Setting → Prop} : Halts room shown taking setting :=
  halts_optionName.before fun _ => (halts_expect _).bind fun _ => (halts_value _).bind fun _ =>
    halts_pure id

theorem ends_optionStatement : Ends room shown optionStatement :=
  halts_setting.bind fun _ => (halts_expect _).bind fun _ => halts_pure id

theorem ends_bracketOptions : Ends room shown bracketOptions := by
  apply (ends_eat _).bind
  intro opened
  split
  · exact (halts_commaSeparated halts_setting).bind fun _ => (halts_expect _).bind fun _ =>
      halts_pure id
  · exact halts_pure id

/-! ### Fields -/

private theorem ends_fieldRest (start : Located) (label : Label) (typeName : String) :
    Ends room shown fun budget => fieldRest budget start label typeName :=
  (halts_plainName _).bind fun _ => (halts_expect _).bind fun _ => (halts_int _).bind fun _ =>
    ends_bracketOptions.bind fun _ => (halts_expect _).bind fun _ => ends_accept _ _

theorem halts_labelledField {taking : Field → Prop} (more : t.token ≠ .eof) (label : Label) :
    Halts room (some t) taking fun budget => labelledField budget label :=
  halts_next_bind_of_ne more ((halts_ident _).bind fun _ => ends_fieldRest _ _ _)

theorem halts_mapField {taking : Field → Prop} (more : t.token ≠ .eof) :
    Halts room (some t) taking mapField :=
  halts_next_bind_of_ne more <| (halts_expect _).bind fun _ => (halts_ident _).bind fun _ =>
    (halts_expect _).bind fun _ => (halts_ident _).bind fun _ => (halts_expect _).bind fun _ =>
      ends_fieldRest _ _ _

/-! ### Extensions -/

private theorem ends_rangeEnd (first : Int) : Ends room shown fun _ => rangeEnd first := by
  apply (ends_eatKeyword _).bind
  intro isRange
  split
  · apply (ends_eatKeyword _).bind
    intro isMax
    split
    · exact halts_pure id
    · exact halts_int _
  · exact halts_pure id

private theorem halts_extensionRange {taking : ExtensionRange → Prop} (doc : String) :
    Halts room shown taking fun _ => extensionRange doc :=
  halts_peek_bind fun _ => (halts_int _).before fun _ => (ends_rangeEnd _).bind fun _ =>
    ends_accept _ _

theorem halts_extensions {taking : List ExtensionRange → Prop} :
    Halts room shown taking fun _ => extensions :=
  (halts_expectKeyword _).before fun _ => (halts_commaSeparated (halts_extensionRange _)).bind
    fun _ => (halts_expect _).bind fun _ => halts_pure id

/-! ### Statements -/

section Statements

/-- The empty statement is a token. -/
private theorem halts_empty {taking : Option α → Prop} {empty : α}
    (same : t.token = .mark .semicolon) :
    Halts room (some t) taking fun _ => discard next >>= fun _ => pure (some empty) :=
  halts_discard_next_bind (by simp [same]) (halts_pure id)

/-- A statement takes a token if what it declares does. -/
private theorem halts_statement {taking : Option α → Prop} {reader : Nat → Reader β} {of : β → α}
    (h : Halts room shown (fun _ => True) reader) :
    Halts room shown taking fun budget => reader budget >>= fun v => pure (some (of v)) :=
  h.before fun _ => halts_pure id

private theorem halts_optionWord {taking : Option α → Prop} {of : Setting → α}
    (more : t.token ≠ .eof) :
    Halts room (some t) taking fun budget =>
      discard next >>= fun _ => optionStatement budget >>= fun s => pure (some (of s)) :=
  halts_discard_next_bind more (ends_optionStatement.bind fun _ => halts_pure id)

/-- A declaration of statements in braces, behind its name. -/
private theorem ends_braces {item : Nat → Reader (Option α)} {finish : List α → Reader β}
    (statement : Halts room none (fun o => o.isSome) item)
    (last : ∀ statements, Ends room none fun _ => finish statements) :
    Ends room shown fun budget => expect .openBrace >>= fun _ => many (item budget) >>=
      fun statements => expect .closeBrace >>= fun _ => finish statements :=
  (halts_expect _).bind fun _ => (ends_many statement).bind fun _ => (halts_expect _).bind
    fun _ => last _

end Statements

private theorem halts_extendStatement :
    Halts room shown (fun o => o.isSome) extendStatement := by
  apply halts_peek_bind
  intro t
  split
  next => exact halts_pure nofun
  next same => exact halts_empty same
  next =>
    split
    next label isLabel =>
      obtain ⟨k, word, _⟩ := Option.bind_eq_some_iff.mp isLabel
      exact halts_statement (halts_labelledField (ne_eof_of_keyword? word) label)
    next => exact halts_unexpected _ _

theorem halts_extendBlock {taking : ExtendBlock → Prop} : Halts room shown taking extendBlock :=
  (halts_expectKeyword _).before fun _ => (halts_ident _).bind fun _ =>
    ends_braces halts_extendStatement fun _ => ends_accept _ _

/-! ### Enums -/

private theorem halts_enumValue {taking : EnumValue → Prop} : Halts room shown taking enumValue :=
  halts_peek_bind fun _ => (halts_plainName _).before fun _ => (halts_expect _).bind fun _ =>
    (halts_int _).bind fun _ => ends_bracketOptions.bind fun _ => (halts_expect _).bind fun _ =>
      ends_accept _ _

private theorem halts_enumStatement : Halts room shown (fun o => o.isSome) enumStatement := by
  apply halts_peek_bind
  intro t
  split
  next => exact halts_pure nofun
  next same => exact halts_empty same
  next same =>
    split
    · exact halts_optionWord (by simp [same])
    · exact halts_statement halts_enumValue
  next => exact halts_unexpected _ _

theorem halts_enumType {taking : EnumType → Prop} (scope : Scope) :
    Halts room shown taking fun budget => enumType budget scope :=
  (halts_expectKeyword _).before fun _ => (halts_plainName _).bind fun _ =>
    ends_braces halts_enumStatement fun _ => ends_accept _ _

/-! ### Services -/

private theorem halts_rpcStatement : Halts room shown (fun o => o.isSome) rpcStatement := by
  apply halts_peek_bind
  intro t
  split
  next => exact halts_pure nofun
  next same => exact halts_empty same
  next =>
    split
    next word => exact halts_optionWord (ne_eof_of_keyword? word)
    next => exact halts_unexpected _ _

private theorem ends_rpcOptions : Ends room shown rpcOptions := by
  apply (ends_eat _).bind
  intro opened
  split
  · exact (ends_many halts_rpcStatement).bind fun _ => (halts_expect _).bind fun _ =>
      (ends_eat _).discard.bind fun _ => halts_pure id
  · exact (halts_expect _).bind fun _ => halts_pure id

theorem halts_rpc {taking : Method → Prop} : Halts room shown taking rpc :=
  (halts_expectKeyword _).before fun _ => (halts_plainName _).bind fun _ =>
    (halts_expect _).bind fun _ => (halts_ident _).bind fun _ => (halts_expect _).bind fun _ =>
      Halts.bind (Ends.discard (halts_expectKeyword _)) fun _ => (halts_expect _).bind fun _ =>
        (halts_ident _).bind fun _ => (halts_expect _).bind fun _ => ends_rpcOptions.bind fun _ =>
          ends_accept _ _

private theorem halts_serviceStatement :
    Halts room shown (fun o => o.isSome) serviceStatement := by
  apply halts_peek_bind
  intro t
  split
  next => exact halts_pure nofun
  next same => exact halts_empty same
  next =>
    split
    next word => exact halts_optionWord (ne_eof_of_keyword? word)
    next => exact halts_statement halts_rpc
    next => exact halts_unexpected _ _

theorem halts_service {taking : Service → Prop} (scope : Scope) :
    Halts room shown taking fun budget => service budget scope :=
  (halts_expectKeyword _).before fun _ => (halts_plainName _).bind fun _ =>
    ends_braces halts_serviceStatement fun _ => ends_accept _ _

/-! ### Messages -/

private theorem halts_messageStatement {message : Nat → Reader Message} (scope : Scope)
    (halts : Halts room none (fun _ => True) message) : Halts room shown (fun o => o.isSome)
      fun budget => messageStatement (message budget) budget scope := by
  apply halts_peek_bind
  intro t
  split
  next => exact halts_pure nofun
  next same => exact halts_empty same
  next name same =>
    -- The word was looked at, so the reader that is chosen finds it.
    have more : t.token ≠ .eof := by simp [same]
    split
    · exact halts_statement (halts_mapField more)
    · split
      · exact halts_statement halts.anywhere
      · exact halts_statement (halts_enumType scope)
      · exact halts_statement halts_extendBlock
      · exact halts_statement halts_extensions
      · exact halts_optionWord more
      · split
        · exact halts_statement (halts_labelledField more _)
        · exact halts_unexpected _ _
      · exact halts_unexpected _ _
  next => exact halts_unexpected _ _

/-- The name of a message and what stands in its braces. -/
private def messageInside (scope : Scope) (budget : Nat) :
    Reader (String × List MessageStatement) := do
  let name ← plainName .messageName
  expect .openBrace
  let inner := scope ++ [name]
  let statements ← many (messageStatement (message budget inner) budget inner)
  return (name, statements)

/-- The inside of a message is opened by its keyword, and closed in front of the closing brace. -/
private theorem message_eq (budget : Nat) (scope : Scope) : message budget scope = (do
    let start ← expectKeyword .messageWord
    let (name, statements) ← nested start (messageInside scope) budget
    expect .closeBrace
    accept start.position
      (Message.make name (scope.qualify name) (docOf start) (bodyOfStatements statements))) := by
  cases budget with
  | zero => rfl
  | succ budget => simp only [message, nested, messageInside, bind_assoc, pure_bind]

private theorem ends_messageInside (scope : Scope)
    (halts : ∀ scope, Halts room none (fun _ => True) fun budget => message budget scope) :
    Ends room shown (messageInside scope) :=
  (halts_plainName _).bind fun _ => (halts_expect _).bind fun _ =>
    (ends_many (halts_messageStatement _ (halts _))).bind fun _ => halts_pure id

theorem halts_message {taking : Message → Prop} (scope : Scope) :
    Halts room shown taking fun budget => message budget scope := by
  induction room using Nat.strong_induction_on generalizing shown taking scope with
  | _ room ih =>
    simp only [message_eq]
    refine (halts_expectKeyword _).before fun start => Halts.bind (.nested fun inner levels => ?_)
      fun _ => (halts_expect _).bind fun _ => ends_accept _ _
    exact ends_messageInside scope (ih inner (by omega))

/-! ### Files -/

private theorem halts_importStatement {taking : FileStatement → Prop} (more : t.token ≠ .eof) :
    Halts room (some t) taking fun _ => importStatement :=
  halts_discard_next_bind more <| (ends_eatKeyword _).bind fun _ => (halts_textLiteral _).bind
    fun _ => (halts_expect _).bind fun _ => halts_pure id

private theorem halts_fileStatement (scope : Scope) :
    Halts room shown (fun o => o.isSome) fun budget => fileStatement budget scope := by
  apply halts_peek_bind
  intro t
  split
  next => exact halts_pure nofun
  next more =>
    split
    next same => exact halts_empty same
    next =>
      split
      · exact halts_pure nofun
      · exact (halts_importStatement more).before fun _ => halts_pure id
      · exact halts_optionWord more
      · exact halts_statement (halts_message scope)
      · exact halts_statement (halts_enumType scope)
      · exact halts_statement halts_extendBlock
      · exact halts_statement (halts_service scope)
      · exact halts_unexpected _ _

private theorem ends_versionStatement? : Ends room shown fun _ => versionStatement? := by
  apply (ends_eatKeyword _).bind
  intro isVersion
  split
  · exact (halts_expect _).bind fun _ => halts_peek_bind fun _ => (halts_textLiteral _).before
      fun _ => (halts_expect _).bind fun _ => (ends_accept _ _).bind fun _ => halts_pure id
  · exact halts_pure id

private theorem ends_packageStatement? : Ends room shown fun _ => packageStatement? := by
  apply halts_peek_bind
  intro t
  apply (ends_eatKeyword _).bind
  intro isPackage
  split
  · exact (halts_ident _).bind fun _ => (halts_expect _).bind fun _ => halts_pure id
  · exact halts_pure id

private theorem ends_statementsOf (package : String) :
    Ends room shown fun budget => statementsOf budget package := by
  refine (ends_many (halts_fileStatement _)).bind fun _ => ?_
  apply ends_packageStatement?.bind
  intro again
  split
  · exact halts_pure id
  · exact ends_accept _ _

theorem ends_fileText : Ends room shown fileText := by
  refine ends_versionStatement?.bind fun _ => (ends_many (halts_fileStatement _)).bind fun _ =>
    ends_packageStatement?.bind fun package => ?_
  split
  · exact halts_pure id
  · exact (ends_statementsOf _).bind fun _ => halts_pure id

theorem ends_file (name : String) : Ends room shown fun budget => file budget name := by
  apply ends_fileText.bind
  intro text
  split
  · exact halts_pure id
  · exact ends_accept _ _

end Reading

/-! ### Parsing -/

variable {config : DocConfig} {name : String} {text : List Char}

/-- What a run over a cursor on a text comes to is what the text is parsed to. -/
theorem Runs.parse_eq {o : Except ReadError (SchemaFile × CountingCursor)}
    (run : Runs (fun budget => file budget name) (.ofText config text) o) :
    parse config name text = o.map (·.1) := by
  have same : runOn (file nestingLimit name) (TokenStream.ofText config text) = _ := run.runOn_eq
  rw [parse, ofStream_eq, same]
  cases o <;> rfl

/-- Behind a file that was read there are no more tokens. -/
theorem Runs.left_eq_zero {f : SchemaFile} {after : CountingCursor}
    (run : Runs (fun budget => file budget name) (.ofText config text) (.ok (f, after))) :
    after.left = 0 := by
  have reads := (reads_of_runOn run.runOn_eq).1
  obtain ⟨⟨_, _, ⟨used, whole, _⟩, _⟩, atEnd⟩ :=
    (reads_file_iff (CountingCursor.stream_isProper _)).mp reads
  -- What is left are tokens of the text, none of which is an end mark.
  have more : ∀ t ∈ after.stream.tokens, t.token ≠ .eof := by
    intro t member
    have shown : t ∈ (TokenStream.ofText config text).tokens :=
      whole ▸ List.mem_append_right used member
    exact TokenStream.ne_eof_of_mem_ofText shown
  exact congrArg List.length ((sees_eof_iff (CountingCursor.stream_isProper _) more).mp atEnd).1

/-- A text is parsed by a run over a cursor: tokens come from the lexer one at a time as they are
looked at, and what is open is counted. When a file has been read, all that was opened is closed and
all tokens are taken. -/
theorem parse_runs_over_cursor (config : DocConfig) (name : String) (text : List Char) :
    ∃ o, Runs (fun budget => file budget name) (.ofText config text) o ∧
      parse config name text = o.map (·.1) ∧
      ∀ f after, o = .ok (f, after) → after.depth = 0 ∧ after.left = 0 := by
  cases @ends_file _ none name (.ofText config text) rfl nofun with
  | @ok f after run _ =>
    refine ⟨_, run, run.parse_eq, ?_⟩
    rintro _ _ ⟨⟩
    exact ⟨(run.settled f after rfl).1, run.left_eq_zero⟩
  | error run => exact ⟨_, run, run.parse_eq, by rintro _ _ ⟨⟩⟩

end ProtoSchema
