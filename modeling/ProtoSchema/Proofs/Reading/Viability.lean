import ProtoSchema.Proofs.Reading.Completion
import ProtoSchema.Proofs.Reading.Value

/-!
# Every reader can be completed

For each reader there are tokens that take it from any place where it misses a token to its end, as
long as what was read is not hopeless. Most readers stop in front of the same tokens; the readers of
messages can be completed once their keyword is there, for only then it is known that one more
message may be opened.
-/

namespace ProtoSchema.Reading

open Reader Grammar

variable {α β : Type} {follow : Token → Prop}

/-- A token in front of which everything ends that has no bracket of its own: what is repeated, what
may be left out, and names and literals of several parts. -/
def IsStop : Token → Prop
  | .mark m => m ≠ .openBracket ∧ m ≠ .comma
  | .eof => True
  | _ => False

theorem IsStop.suffixOf?_eq_none {t : Token} (h : IsStop t) : suffixOf? t = none := by
  cases t <;> first | rfl | exact h.elim

theorem IsStop.partOf?_eq_none {t : Token} (h : IsStop t) : partOf? t = none := by
  cases t <;> first | rfl | exact h.elim

theorem IsStop.ne_comma {t : Token} (h : IsStop t) : t ≠ .mark .comma := by
  rintro rfl
  exact h.2 rfl

theorem IsStop.ne_openBracket {t : Token} (h : IsStop t) : t ≠ .mark .openBracket := by
  rintro rfl
  exact h.1 rfl

theorem IsStop.ne_keyword {t : Token} (h : IsStop t) (k : Keyword) : t ≠ k.token := by
  rintro rfl
  exact h

theorem leads_mark {m : Mark} {whole : List Stopgap} (h : m ≠ .openBracket ∧ m ≠ .comma) :
    Leads IsStop follow (.mark m :: whole) := h

/-! ### Literals -/

/-- The parts of a literal behind the first one. -/
private def literalPart : Reader (Option (List UInt8)) := do
  match (← peek).token with
  | .str bytes =>
    discard next
    return some bytes
  | _ => return none

private def literalParts : Reader (List (List UInt8)) := many literalPart

private theorem reads_literalPart_of_sees {ending : Ending} {ts : List Located}
    (sees : Sees IsStop ending ts) : Reads literalPart ending ts none ts := by
  refine sees.reads_peek_bind fun t stop => ?_
  split
  next found => rw [found] at stop; exact stop.elim
  next => exact reads_pure_iff.mpr ⟨rfl, rfl⟩

private theorem completable_literalParts : Completable IsStop [] literalParts := by
  refine completable_many (.peek fun t => ?_) (fun t (fits : IsStop t) => fits)
    fun ending after _ sees => reads_literalPart_of_sees sees
  split
  · exact completable_next.map.resumable_return
  · exact (completable_pure _).toResumable

theorem completable_literal (expected : Expectation) :
    Completable IsStop [.literal []] (literal expected) := by
  refine ⟨⟨.of_mirrors fun _ _ _ => Simulation.mirrors_literal _,
    viable_next_bind fun t ts => ?_⟩,
    completes_single fun t ending after token proper sees => ?_⟩
  · split
    · exact (completable_literalParts.bind (fun _ => completable_pure _)
        fun _ fits => fits).viable_anywhere ts
    · exact viable_unexpected t expected
  · have word : t.word = ⟨.str [], docOf t⟩ := by rw [Located.word, token]; rfl
    refine ⟨[], (reads_literal_iff proper).mpr ⟨⟨[t.word], ?_, ?_⟩, ?_⟩⟩
    · exact takes_single_iff.mpr ⟨t, rfl, rfl⟩
    · rw [word]
      exact .last
    · exact sees.mono fun _ stop => stop.partOf?_eq_none

section Parts

variable {ending : Ending} {t : Located} {ts more : List Located} {parts : List (List UInt8)}

private theorem many_literalPart_cons {bytes : List UInt8} (part : t.token = .str bytes)
    (ts : List Located) :
    many literalPart ending (t :: ts) =
      (many literalPart ending ts).map fun result => (bytes :: result.1, result.2) := by
  refine many_of_reads ?_ (by simp)
  refine reads_bind_iff.mpr ⟨t, t :: ts, run_peek_cons t ending ts, ?_⟩
  rw [part]
  rfl

private theorem many_literalPart_other (other : ∀ bytes, t.token ≠ .str bytes)
    (ts : List Located) : many literalPart ending (t :: ts) = .ok ([], t :: ts) := by
  refine reads_many_nil_iff.mpr (reads_bind_iff.mpr ⟨t, t :: ts, run_peek_cons t ending ts, ?_⟩)
  split
  next bytes found => exact absurd found (other bytes)
  next => exact reads_pure_iff.mpr ⟨rfl, rfl⟩

private theorem many_literalPart_append (same : ts.map Located.token = parts.map Token.str) :
    many literalPart ending (ts ++ more) =
      (many literalPart ending more).map fun result => (parts ++ result.1, result.2) := by
  induction parts generalizing ts with
  | nil =>
    obtain rfl := List.map_eq_nil_iff.mp same
    rw [List.nil_append]
    cases many literalPart ending more <;> rfl
  | cons part parts ih =>
    obtain ⟨t, ts, rfl, first, rest⟩ := List.map_eq_cons_iff.mp same
    rw [List.cons_append, many_literalPart_cons first, ih rest]
    cases many literalPart ending more <;> rfl

/-- Only the end of what is there keeps parts from being taken. -/
private theorem exists_parts_of_misses
    (misses : many literalPart (.failed cutOff) ts = .error (.lexical cutOff)) :
    ∃ parts : List (List UInt8), ts.map Located.token = parts.map Token.str := by
  -- The parts are counted off one by one, up to the end of the stream.
  induction ts with
  | nil => exact ⟨[], rfl⟩
  | cons t ts ih =>
    by_cases part : ∃ bytes, t.token = .str bytes
    · obtain ⟨bytes, part⟩ := part
      rw [many_literalPart_cons part] at misses
      cases behind : many literalPart (.failed cutOff) ts with
      | ok result =>
        rw [behind] at misses
        cases misses
      | error e =>
        rw [behind] at misses
        cases misses
        obtain ⟨parts, same⟩ := ih behind
        exact ⟨bytes :: parts, by simp [part, same]⟩
    · rw [many_literalPart_other fun bytes found => part ⟨bytes, found⟩] at misses
      cases misses

private theorem many_literalPart_total (ending : Ending) (ts : List Located) :
    (∃ parts rest, many literalPart ending ts = .ok (parts, rest)) ∨
      ∃ e, many literalPart ending ts = .error (.lexical e) := by
  induction ts with
  | nil =>
    cases ending with
    | failed e => exact .inr ⟨e, by rw [many.eq_def]; rfl⟩
    | finished mark =>
      -- Even the end mark is looked at, and taken if it is a literal; whatever it is, the row ends
      -- there.
      have atEnd : (∃ bytes, (literalPart.run (.finished mark)).run [] = .ok (some bytes, [])) ∨
          (literalPart.run (.finished mark)).run [] = .ok (none, []) := by
        obtain ⟨token, position, doc⟩ := mark
        cases token <;> first | exact .inr rfl | exact .inl ⟨_, rfl⟩
      rcases atEnd with ⟨bytes, found⟩ | found
      · exact .inl ⟨[bytes], [], by rw [many.eq_def, found]; simp⟩
      · exact .inl ⟨[], [], by rw [many.eq_def, found]⟩
  | cons t ts ih =>
    by_cases part : ∃ bytes, t.token = .str bytes
    · obtain ⟨bytes, part⟩ := part
      rw [many_literalPart_cons part]
      rcases ih with ⟨parts, rest, found⟩ | ⟨e, failed⟩
      · exact .inl ⟨_, _, by rw [found]; rfl⟩
      · exact .inr ⟨e, by rw [failed]; rfl⟩
    · exact .inl ⟨_, _, many_literalPart_other (fun bytes found => part ⟨bytes, found⟩) ts⟩

end Parts

private theorem run_literal_cons {bytes : List UInt8} {t : Located} (first : t.token = .str bytes)
    (expected : Expectation) (ending : Ending) (ts : List Located) :
    ((literal expected).run ending).run (t :: ts) =
      (many literalPart ending ts).map fun result =>
        (bytes ++ result.1.flatten, result.2) := by
  have behind : ((literal expected).run ending).run (t :: ts) =
      ((literalParts >>= fun more => pure (bytes ++ more.flatten)).run ending).run ts := by
    unfold literal
    rw [run_bind, run_next_cons]
    simp only [first]
    rfl
  have parts : (literalParts.run ending).run ts = many literalPart ending ts := rfl
  rw [behind, run_bind, parts]
  cases many literalPart ending ts <;> rfl

private theorem run_literal_other {t : Located} (other : ∀ bytes, t.token ≠ .str bytes)
    (expected : Expectation) (ending : Ending) (ts : List Located) :
    ((literal expected).run ending).run (t :: ts) =
      .error (.unexpected ⟨t.position, expected, t.token⟩) := by
  unfold literal
  rw [run_bind, run_next_cons]
  simp only
  rfl

section Text

variable {role : TextRole} {ending : Ending} {t : Located} {ts rest : List Located}
  {bytes : List UInt8}

private theorem run_textLiteral_of_error {e : ReadError}
    (failed : ((literal (.literal role)).run ending).run (t :: ts) = .error e) :
    ((textLiteral role).run ending).run (t :: ts) = .error e := by
  unfold textLiteral
  rw [run_bind, run_peek_cons]
  simp only
  rw [run_bind, failed]

private theorem run_textLiteral_of_text {text : String}
    (reads : Reads (literal (.literal role)) ending (t :: ts) bytes rest)
    (decoded : Utf8.decode? bytes = some text) :
    ((textLiteral role).run ending).run (t :: ts) = .ok (text, rest) := by
  have found : ((literal (.literal role)).run ending).run (t :: ts) = .ok (bytes, rest) := reads
  unfold textLiteral
  rw [run_bind, run_peek_cons]
  simp only
  rw [run_bind, found]
  simp only [decoded]
  rfl

private theorem run_textLiteral_of_bytes
    (reads : Reads (literal (.literal role)) ending (t :: ts) bytes rest)
    (undecodable : Utf8.decode? bytes = none) :
    ((textLiteral role).run ending).run (t :: ts) =
      .error (.unexpected ⟨t.position, .textLiteral role, .str bytes⟩) := by
  have found : ((literal (.literal role)).run ending).run (t :: ts) = .ok (bytes, rest) := reads
  unfold textLiteral
  rw [run_bind, run_peek_cons]
  simp only
  rw [run_bind, found]
  simp only [undecodable]
  rfl

/-- Where text is missing a token, the literal is missing a part. -/
private theorem misses_part_of_misses_text (first : t.token = .str bytes)
    (misses : ((textLiteral role).run (.failed cutOff)).run (t :: ts) = .error (.lexical cutOff)) :
    many literalPart (.failed cutOff) ts = .error (.lexical cutOff) := by
  have reads := run_literal_cons first (.literal role) (.failed cutOff) ts
  rcases many_literalPart_total (.failed cutOff) ts with ⟨parts, rest, found⟩ | ⟨e, failed⟩
  · rw [found] at reads
    cases decoded : Utf8.decode? (bytes ++ parts.flatten) with
    | some text => cases misses.symm.trans (run_textLiteral_of_text reads decoded)
    | none => cases misses.symm.trans (run_textLiteral_of_bytes reads decoded)
  · rw [failed] at reads
    cases misses.symm.trans (run_textLiteral_of_error reads)
    exact failed

/-- A literal that must be text is completed by bytes that make it text, unless none do. -/
private theorem viable_textLiteral (role : TextRole) (t : Located) (ts : List Located) :
    Viable IsStop (textLiteral role) (t :: ts) := by
  intro seen pending
  obtain ⟨subset, misses, ending, more, hope⟩ := pending
  by_cases part : ∃ bytes, t.token = .str bytes
  · obtain ⟨bytes, first⟩ := part
    -- The parts that are there are all of what was read.
    obtain ⟨parts, same⟩ := exists_parts_of_misses (misses_part_of_misses_text first misses)
    have append (ending : Ending) (more : List Located) :
        ((literal (.literal role)).run ending).run (t :: (ts ++ more)) =
          (many literalPart ending more).map fun result =>
            (bytes ++ (parts ++ result.1).flatten, result.2) := by
      rw [run_literal_cons first, many_literalPart_append same]
      cases many literalPart ending more <;> rfl
    -- Together with the parts of a continuation that has hope they are text.
    have reads := append ending more
    rcases many_literalPart_total ending more with ⟨later, rest, found⟩ | ⟨e, failed⟩
    · rw [found] at reads
      cases decoded : Utf8.decode? (bytes ++ (parts ++ later).flatten) with
      | none =>
        refine absurd ?_ hope
        rw [List.cons_append, run_textLiteral_of_bytes reads decoded]
        exact .unexpected _ _ (subset List.mem_cons_self)
      | some text =>
        refine ⟨[.literal later.flatten], fun cs ending after tokens _ sees => .inl ⟨text, ?_⟩⟩
        obtain ⟨c, rfl, token⟩ := List.map_eq_singleton_iff.mp tokens
        have stop : many literalPart ending after = .ok ([], after) :=
          reads_many_nil_iff.mpr (reads_literalPart_of_sees sees)
        have reads := append ending (c :: after)
        rw [many_literalPart_cons token, stop] at reads
        refine run_textLiteral_of_text reads ?_
        simpa using decoded
    · rw [failed] at reads
      refine absurd ?_ hope
      rw [List.cons_append, run_textLiteral_of_error reads]
      exact .lexical e
  · have reads := run_literal_other (fun bytes found => part ⟨bytes, found⟩) (.literal role)
      (.failed cutOff) ts
    cases misses.symm.trans (run_textLiteral_of_error reads)

end Text

theorem completable_textLiteral (role : TextRole) :
    Completable IsStop [.literal []] (textLiteral role) := by
  refine ⟨⟨.of_mirrors fun _ _ _ => Simulation.mirrors_textLiteral _, fun ts nonempty => ?_⟩,
    completes_single fun t ending after token proper sees => ?_⟩
  · obtain ⟨t, ts, rfl⟩ := List.exists_cons_of_ne_nil nonempty
    exact viable_textLiteral role t ts
  · have word : t.word = ⟨.str [], docOf t⟩ := by rw [Located.word, token]; rfl
    refine ⟨"", (reads_textLiteral_iff proper).mpr ⟨⟨[t.word], [], ?_, ?_, ?_⟩, ?_⟩⟩
    · exact takes_single_iff.mpr ⟨t, rfl, rfl⟩
    · rw [word]
      exact .last
    · decide +kernel
    · exact sees.mono fun _ stop => stop.partOf?_eq_none

/-! ### Options -/

theorem completable_optionNameSuffixes : Completable IsStop [] optionNameSuffixes := by
  refine completable_many (.peek fun t => ?_) (fun t (fits : IsStop t) => fits)
    fun ending after _ sees => ?_
  · split
    · split
      · exact completable_next.map.resumable_return
      · exact (completable_pure _).toResumable
    · exact (completable_pure _).toResumable
  · refine sees.reads_peek_bind fun t stop => ?_
    split
    next found => rw [found] at stop; exact stop.elim
    next => exact reads_pure_iff.mpr ⟨rfl, rfl⟩

theorem completable_parenthesizedName :
    Completable follow [.name, .mark .closeParen] parenthesizedName :=
  (completable_ident _).seq fun _ => (completable_expect _).seq fun _ => completable_pure _

theorem completable_optionName : Completable IsStop [.name] optionName := by
  have path (base : String) : Completable IsStop []
      (optionNameSuffixes >>= fun names => pure (base ++ String.join names)) :=
    completable_optionNameSuffixes.bind (fun _ => completable_pure _) fun _ fits => fits
  refine ⟨⟨.of_mirrors fun _ _ _ => Simulation.mirrors_optionName,
    viable_next_bind fun t ts => ?_⟩,
    completes_single fun t ending after token proper sees => ?_⟩
  · split
    · exact ((completable_pure _).seq path).viable_anywhere ts
    · exact (completable_parenthesizedName.seq path).viable_anywhere ts
    · exact viable_of_ne (by rw [run_bind, unexpected, run_throw]; simp)
  · have word : t.word = ⟨.ident "x", docOf t⟩ := by rw [Located.word, token]; rfl
    refine ⟨"x" ++ "", (reads_optionName_iff proper).mpr ⟨⟨[t.word], ?_, ?_⟩, ?_⟩⟩
    · exact takes_single_iff.mpr ⟨t, rfl, rfl⟩
    · rw [word]
      exact .plain .nil
    · exact sees.mono fun _ stop => stop.suffixOf?_eq_none

/-! ### Values -/

section Values

variable {item : Reader Value}

theorem completable_listItems (h : Completable IsStop [.number] item) :
    Completable follow [.number, .mark .closeBracket] (listItems item) := by
  refine (isEater_eat _).completable_branch (completable_pure _) ?_ (.cons (by decide))
  have items := h.commaSeparated fun t (stop : IsStop t) => ⟨stop, stop.ne_comma⟩
  exact items.bind (fun _ => (completable_expect _).seq fun _ => completable_pure _)
    (leads_mark (by decide))

theorem completable_mapKey : Completable IsStop [.name] mapKey :=
  (isEater_eat _).completable_branch
    ((completable_ident _).seq fun _ => (completable_expect _).seq fun _ => completable_pure _)
    completable_optionName (.cons (by decide))

theorem completable_mapValue (h : Completable IsStop [.number] item) :
    Completable IsStop [.mark .colon, .number] (mapValue item) := by
  refine IsEater.completable_branch_taking (g := .mark .colon) (isEater_eat _) h (.peek fun t => ?_)
  split
  · exact h.toResumable
  · exact resumable_unexpected t _

/-- The entries of a map are completed by the mark that closes it. -/
theorem completable_mapEntries (h : Completable IsStop [.number] item) {close : Mark}
    (stop : IsStop (.mark close)) : Completable follow [.mark close] (mapEntries item close) := by
  have separator (entry : Setting) : Completable IsStop [.mark .semicolon]
      (eat .comma >>= fun b => if b = true then pure (some entry)
        else discard (eat .semicolon) >>= fun _ => pure (some entry)) :=
    (isEater_eat _).completable_branch (completable_pure _)
      ((IsEater.completable_taking (g := .mark .semicolon) (isEater_eat _)).map.seq
        fun _ => completable_pure _) (.cons (by decide))
  have entry := completable_mapKey.bind (fun name => (completable_mapValue h).bind
    (fun v => separator ⟨name, v⟩) (leads_mark (by decide))) (leads_mark (by decide))
  refine completable_many_until ((isEater_eat close).resumable_branch (completable_pure none)
    entry.toResumable) stop ?_ ?_
  · -- The closing mark stops the entries, and with it the map.
    intro cs ending after same _ _
    obtain ⟨t, rfl, token⟩ := List.map_eq_singleton_iff.mp same
    have taken : Reads (eat close) ending (t :: after) true after :=
      ((isEater_eat close).cons ending t after).trans (if_pos token)
    exact reads_bind_iff.mpr ⟨true, after, taken, reads_pure_iff.mpr ⟨rfl, rfl⟩⟩
  · -- That mark is looked for first. A reader that misses a token behind some others is in an
    -- entry.
    intro _ ts nonempty misses ending more rest reads
    obtain ⟨t, ts, rfl⟩ := List.exists_cons_of_ne_nil nonempty
    obtain ⟨b, mid, eaten, reads⟩ := reads_bind_iff.mp reads
    have eaten := ((isEater_eat close).cons ending t (ts ++ more)).symm.trans eaten
    by_cases closes : t.token = .mark close
    · rw [run_bind, (isEater_eat close).cons, if_pos closes] at misses
      cases misses
    · rw [if_neg closes] at eaten
      cases eaten
      -- What is read otherwise is an entry.
      simp only [Bool.false_eq_true, if_false, reads_bind_iff] at reads
      obtain ⟨name, _, _, v, _, _, b, _, _, last⟩ := reads
      cases b <;> simp at last

theorem exists_completable_bracketed (h : Completable IsStop [.number] item) (bracket : Bracket) :
    ∃ whole, Completable IsStop whole (bracketed item bracket) := by
  cases bracket with
  | list => exact ⟨_, (completable_listItems h).map⟩
  | braces => exact ⟨_, (completable_mapEntries h ⟨by decide, by decide⟩).map⟩
  | angles => exact ⟨_, (completable_mapEntries h ⟨by decide, by decide⟩).map⟩

theorem completable_valueWith {composite : Located → Bracket → Reader Value}
    (steady : Steady (valueWith composite))
    (h : ∀ t bracket ts, Viable IsStop (composite t bracket) ts) :
    Completable IsStop [.number] (valueWith composite) := by
  refine ⟨⟨steady, fun ts nonempty => ?_⟩,
    completes_single fun t ending after token proper _ => ?_⟩
  · obtain ⟨t, ts, rfl⟩ := List.exists_cons_of_ne_nil nonempty
    refine viable_peek_bind ?_
    split
    · exact ((completable_literal _).bind (fun _ => completable_pure _) fun _ fits => fits).viable_anywhere
        (t :: ts)
    · refine viable_next_bind (fun t ts => ?_) (t :: ts) nonempty
      split
      · exact (completable_pure _).viable_anywhere ts
      · exact (completable_pure _).viable_anywhere ts
      · exact (completable_pure _).viable_anywhere ts
      · split
        · exact h t _ ts
        · exact viable_unexpected t _
      · exact viable_unexpected t _
  · have scalar : scalarOf? t.token = some (.int 1) := by rw [token]; rfl
    exact ⟨.int 1, (reads_valueWith_iff proper).mpr (.inr (.inl ⟨t, rfl, scalar⟩))⟩

theorem completable_value (budget : Nat) : Completable IsStop [.number] (value budget) := by
  induction budget with
  | zero =>
    exact completable_valueWith (.of_mirrors fun _ _ _ => Simulation.mirrors_value 0)
      fun t _ _ => viable_unexpected t _
  | succ budget ih =>
    refine completable_valueWith (.of_mirrors fun _ _ _ => Simulation.mirrors_value (budget + 1))
      fun _ bracket ts => ?_
    obtain ⟨whole, completable⟩ := exists_completable_bracketed ih bracket
    exact completable.viable_anywhere ts

end Values

theorem completable_setting (budget : Nat) :
    Completable IsStop [.name, .mark .equals, .number] (setting budget) :=
  completable_optionName.bind (fun _ => (completable_expect _).seq fun _ =>
    (completable_value budget).bind (fun _ => completable_pure _) fun _ stop => stop)
    (leads_mark (by decide))

theorem completable_optionStatement (budget : Nat) :
    Completable follow [.name, .mark .equals, .number, .mark .semicolon]
      (optionStatement budget) :=
  (completable_setting budget).bind (fun _ => (completable_expect _).seq fun _ =>
    completable_pure _) (leads_mark (by decide))

/-- An option behind its keyword. -/
theorem resumable_option {f : Setting → α} (budget : Nat) :
    Resumable follow (discard next >>= fun _ => optionStatement budget >>= fun o => pure (f o)) :=
  (completable_next.map.seq fun _ => (completable_optionStatement budget).seq
    fun _ => completable_pure _).toResumable

theorem completable_bracketOptions (budget : Nat) :
    Completable IsStop [] (bracketOptions budget) := by
  have settings := (completable_setting budget).commaSeparated
    fun t (stop : IsStop t) => ⟨stop, stop.ne_comma⟩
  exact (isEater_eat _).completable_branch
    (settings.bind (fun _ => (completable_expect .closeBracket).seq fun _ => completable_pure _)
      (leads_mark (by decide)))
    (completable_pure []) fun _ stop => stop.ne_openBracket

/-! ### Fields and extensions -/

theorem completable_fieldRest (budget : Nat) (start : Located) (label : Label)
    (typeName : String) :
    Completable follow [.name, .mark .equals, .number, .mark .semicolon]
      (fieldRest budget start label typeName) :=
  (completable_plainName _).seq fun _ => (completable_expect _).seq fun _ =>
    (completable_int _).seq fun _ => (completable_bracketOptions budget).bind
      (fun _ => (completable_expect _).seq fun _ => completable_accept _ _)
      (leads_mark (by decide))

theorem completable_labelledField (budget : Nat) (label : Label) :
    Completable follow [.name, .name, .name, .mark .equals, .number, .mark .semicolon]
      (labelledField budget label) :=
  completable_next.seq fun start => (completable_ident _).seq fun typeName =>
    completable_fieldRest budget start label typeName

theorem completable_mapField (budget : Nat) :
    Completable follow [.name, .mark .less, .name, .mark .comma, .name, .mark .greater, .name,
      .mark .equals, .number, .mark .semicolon] (mapField budget) :=
  completable_next.seq fun start => (completable_expect _).seq fun _ =>
    (completable_ident _).seq fun _ => (completable_expect _).seq fun _ =>
      (completable_ident _).seq fun _ => (completable_expect _).seq fun _ =>
        completable_fieldRest budget start _ _

theorem completable_rangeEnd (first : Int) : Completable IsStop [] (rangeEnd first) := by
  have last : Completable IsStop [.number] _ := (isEater_eatKeyword .maxWord).completable_branch
    (completable_pure (maxTag : Int)) (completable_int .rangeLast) (.cons (by decide))
  exact (isEater_eatKeyword _).completable_branch last (completable_pure first)
    fun _ stop => stop.ne_keyword _

theorem completable_extensionRange (doc : String) :
    Completable IsStop [.number] (extensionRange doc) :=
  .peek fun _ => (completable_int _).seq fun first => (completable_rangeEnd first).bind
    (fun _ => completable_accept _ _) fun _ stop => stop

theorem completable_extensions :
    Completable follow [.keyword .extensionsWord, .number, .mark .semicolon] extensions :=
  (completable_expectKeyword _).seq fun start =>
    ((completable_extensionRange (docOf start)).commaSeparated
      fun t (stop : IsStop t) => ⟨stop, stop.ne_comma⟩).bind
        (fun _ => (completable_expect _).seq fun _ => completable_pure _) (leads_mark (by decide))

/-- Statements up to a brace. -/
theorem completable_statements {statement : Located → Reader (Option α)}
    (h : Resumable IsStop (peek >>= statement))
    (stops : ∀ t, t.token = .mark .closeBrace → statement t = pure none) :
    Completable (· = .mark .closeBrace) [] (many (peek >>= statement)) := by
  refine completable_many h (fun t closes => by rw [closes]; exact ⟨by decide, by decide⟩)
    fun ending after _ sees => sees.reads_peek_bind fun t closes => ?_
  rw [stops t closes]
  exact reads_pure_iff.mpr ⟨rfl, rfl⟩

/-- Statements between braces. -/
theorem completable_block {statements : Reader α} {f : α → Reader β} {whole : List Stopgap}
    (h : Completable (· = .mark .closeBrace) [] statements)
    (later : ∀ v, Completable follow whole (f v)) :
    Completable follow (.mark .openBrace :: .mark .closeBrace :: whole)
      (expect .openBrace >>= fun _ => statements >>= fun v =>
        expect .closeBrace >>= fun _ => f v) :=
  (completable_expect _).seq fun _ =>
    h.bind (fun v => (completable_expect _).seq fun _ => later v) (.cons rfl)

theorem resumable_extendStatement (budget : Nat) : Resumable IsStop (extendStatement budget) := by
  refine .peek fun t => ?_
  split
  · exact (completable_pure _).toResumable
  · exact completable_next.map.resumable_return
  · split
    · exact (completable_labelledField budget _).resumable_return
    · exact resumable_unexpected t _

theorem completable_extendBlock (budget : Nat) :
    Completable follow [.keyword .extendWord, .name, .mark .openBrace, .mark .closeBrace]
      (extendBlock budget) := by
  have statements : Completable _ [] (many (extendStatement budget)) :=
    completable_statements (resumable_extendStatement budget) fun t closes => by rw [closes]
  exact (completable_expectKeyword _).seq fun _ => (completable_ident _).seq fun _ =>
    completable_block statements fun _ => completable_accept _ _

/-! ### Enums and services -/

theorem completable_enumValue (budget : Nat) :
    Completable follow [.name, .mark .equals, .number, .mark .semicolon] (enumValue budget) :=
  .peek fun _ => (completable_plainName _).seq fun _ => (completable_expect _).seq fun _ =>
    (completable_int _).seq fun _ => (completable_bracketOptions budget).bind
      (fun _ => (completable_expect _).seq fun _ => completable_accept _ _)
      (leads_mark (by decide))

theorem resumable_enumStatement (budget : Nat) : Resumable IsStop (enumStatement budget) := by
  refine .peek fun t => ?_
  split
  · exact (completable_pure _).toResumable
  · exact completable_next.map.resumable_return
  · split
    · exact resumable_option budget
    · exact (completable_enumValue budget).resumable_return
  · exact resumable_unexpected t _

theorem completable_enumType (budget : Nat) (scope : Scope) :
    Completable follow [.keyword .enumWord, .name, .mark .openBrace, .mark .closeBrace]
      (enumType budget scope) := by
  have statements : Completable _ [] (many (enumStatement budget)) :=
    completable_statements (resumable_enumStatement budget) fun t closes => by rw [closes]
  exact (completable_expectKeyword _).seq fun _ => (completable_plainName _).seq fun _ =>
    completable_block statements fun _ => completable_accept _ _

theorem resumable_rpcStatement (budget : Nat) : Resumable IsStop (rpcStatement budget) := by
  refine .peek fun t => ?_
  split
  · exact (completable_pure _).toResumable
  · exact completable_next.map.resumable_return
  · split
    · exact resumable_option budget
    · exact resumable_unexpected t _

/-- The end of a method. Behind braces its own semicolon completes it. -/
theorem completable_rpcOptions (budget : Nat) :
    Completable follow [.mark .semicolon] (rpcOptions budget) := by
  have statements : Completable _ [] (many (rpcStatement budget)) :=
    completable_statements (resumable_rpcStatement budget) fun t closes => by rw [closes]
  exact (isEater_eat _).completable_branch
    (statements.bind (fun _ => (completable_expect .closeBrace).seq fun _ =>
      (IsEater.completable_taking (g := .mark .semicolon) (isEater_eat _)).map.seq
        fun _ => completable_pure _) (.cons rfl))
    ((completable_expect _).seq fun _ => completable_pure []) (.cons (by decide))

theorem completable_rpc (budget : Nat) :
    Completable follow [.keyword .rpcWord, .name, .mark .openParen, .name, .mark .closeParen,
      .keyword .returnsWord, .mark .openParen, .name, .mark .closeParen, .mark .semicolon]
      (rpc budget) :=
  (completable_expectKeyword _).seq fun _ => (completable_plainName _).seq fun _ =>
    (completable_expect _).seq fun _ => (completable_ident _).seq fun _ =>
      (completable_expect _).seq fun _ => (completable_expectKeyword _).map.seq fun _ =>
        (completable_expect _).seq fun _ => (completable_ident _).seq fun _ =>
          (completable_expect _).seq fun _ => (completable_rpcOptions budget).seq fun _ =>
            completable_accept _ _

theorem resumable_serviceStatement (budget : Nat) :
    Resumable IsStop (serviceStatement budget) := by
  refine .peek fun t => ?_
  split
  · exact (completable_pure _).toResumable
  · exact completable_next.map.resumable_return
  · split
    · exact resumable_option budget
    · exact (completable_rpc budget).resumable_return
    · exact resumable_unexpected t _

theorem completable_service (budget : Nat) (scope : Scope) :
    Completable follow [.keyword .serviceWord, .name, .mark .openBrace, .mark .closeBrace]
      (service budget scope) := by
  have statements : Completable _ [] (many (serviceStatement budget)) :=
    completable_statements (resumable_serviceStatement budget) fun t closes => by rw [closes]
  exact (completable_expectKeyword _).seq fun _ => (completable_plainName _).seq fun _ =>
    completable_block statements fun _ => completable_accept _ _

/-! ### Messages -/

theorem resumable_messageStatement {message : Reader Message} (h : Resumable IsStop message)
    (budget : Nat) (scope : Scope) :
    Resumable IsStop (messageStatement message budget scope) := by
  refine .peek fun t => ?_
  split
  · exact (completable_pure _).toResumable
  · exact completable_next.map.resumable_return
  · split
    · exact (completable_mapField budget).resumable_return
    split
    · exact h.bind (fun _ => completable_pure _) fun _ stop => stop
    · exact (completable_enumType budget scope).resumable_return
    · exact (completable_extendBlock budget).resumable_return
    · exact completable_extensions.resumable_return
    · exact resumable_option budget
    · split
      · exact (completable_labelledField budget _).resumable_return
      · exact resumable_unexpected t _
    · exact resumable_unexpected t _
  · exact resumable_unexpected t _

/-- Behind its keyword a message can be completed, or it is one too many. -/
theorem resumable_message (budget : Nat) (scope : Scope) :
    Resumable follow (message budget scope) := by
  induction budget generalizing follow scope with
  | zero =>
    have keyword : Completable (fun _ => True) [.keyword .messageWord]
      (expectKeyword .messageWord) := completable_expectKeyword _
    have fails (start : Located) : Resumable follow (tooDeep start : Reader Message) :=
      resumable_unexpected start _
    refine ⟨keyword.steady.bind fun start => (fails start).steady, fun ts nonempty => ?_⟩
    obtain ⟨t, ts, rfl⟩ := List.exists_cons_of_ne_nil nonempty
    refine viable_of_ne ?_
    -- The keyword is there or it is not; neither way a token is missed.
    rw [message, run_bind, run_expectKeyword_cons]
    by_cases keyword : t.token.keyword? = some .messageWord
    · simp only [if_pos keyword, tooDeep, unexpected, run_throw]
      simp
    · simp only [if_neg keyword]
      simp
  | succ budget ih =>
    have statements (scope : Scope) :
        Completable _ [] (many (messageStatement (message budget scope) budget scope)) :=
      completable_statements (resumable_messageStatement (ih scope) budget scope)
        fun t closes => by rw [closes]
    exact ((completable_expectKeyword _).seq fun _ => (completable_plainName _).seq fun _ =>
      completable_block (statements _) fun _ => completable_accept _ _).toResumable

/-! ### Files -/

theorem completable_importStatement :
    Completable follow [.name, .literal [], .mark .semicolon] importStatement :=
  completable_next.map.seq fun _ => (isEater_eatKeyword _).completable.bind
    (fun _ => (completable_textLiteral _).bind (fun _ => (completable_expect _).seq fun _ =>
      completable_pure _) (leads_mark (by decide))) (.cons (by decide))

theorem resumable_fileStatement (budget : Nat) (scope : Scope) :
    Resumable IsStop (fileStatement budget scope) := by
  refine .peek fun t => ?_
  split
  · exact (completable_pure _).toResumable
  split
  · exact completable_next.map.resumable_return
  split
  · exact (completable_pure _).toResumable
  · exact completable_importStatement.resumable_return
  · exact resumable_option budget
  · exact (resumable_message budget scope).bind (fun _ => completable_pure _) fun _ stop => stop
  · exact (completable_enumType budget scope).resumable_return
  · exact (completable_extendBlock budget).resumable_return
  · exact (completable_service budget scope).resumable_return
  · exact resumable_unexpected t _

/-- Statements of a file are completed by its end. -/
theorem completable_fileStatements (budget : Nat) (scope : Scope) :
    Completable (· = .eof) [] (many (fileStatement budget scope)) := by
  refine completable_many (resumable_fileStatement budget scope)
    (fun t atEnd => by rw [atEnd]; exact trivial) fun ending after _ sees => ?_
  refine sees.reads_peek_bind fun t atEnd => ?_
  rw [if_pos atEnd]
  exact reads_pure_iff.mpr ⟨rfl, rfl⟩

theorem completable_versionStatement? : Completable (· = .eof) [] versionStatement? :=
  (isEater_eatKeyword _).completable_branch
    ((completable_expect .equals).seq fun _ => Completable.peek fun t =>
      (completable_textLiteral .version).bind (fun _ => (completable_expect _).seq fun _ =>
        (completable_accept _ _).seq fun _ => completable_pure _) (leads_mark (by decide)))
    (completable_pure none) fun t atEnd => by rw [atEnd]; decide

theorem completable_packageStatement? : Completable (· = .eof) [] packageStatement? :=
  .peek fun t => (isEater_eatKeyword _).completable_branch
    ((completable_ident .packageName).seq fun _ => (completable_expect _).seq fun _ =>
      completable_pure _)
    (completable_pure none) fun t atEnd => by rw [atEnd]; decide

theorem completable_statementsOf (budget : Nat) (package : String) :
    Completable (· = .eof) [] (statementsOf budget package) := by
  refine (completable_fileStatements budget _).bind (fun _ =>
    completable_packageStatement?.bind (fun again => ?_) fun _ atEnd => atEnd) fun _ atEnd => atEnd
  cases again with
  | none => exact completable_pure _
  | some again => exact completable_accept _ _

theorem completable_fileText (budget : Nat) : Completable (· = .eof) [] (fileText budget) := by
  refine completable_versionStatement?.bind (fun _ => (completable_fileStatements budget _).bind
    (fun _ => completable_packageStatement?.bind (fun package => ?_) fun _ atEnd => atEnd)
      fun _ atEnd => atEnd) fun _ atEnd => atEnd
  cases package with
  | none => exact completable_pure _
  | some package =>
    exact (completable_statementsOf budget _).bind (fun _ => completable_pure _)
      fun _ atEnd => atEnd

/-- A file can be completed wherever a token is missing. -/
theorem completable_file (budget : Nat) (name : String) :
    Completable (· = .eof) [] (file budget name) := by
  refine (completable_fileText budget).bind (fun text => ?_) fun _ atEnd => atEnd
  split
  · exact completable_pure _
  · exact completable_accept _ _

end ProtoSchema.Reading
