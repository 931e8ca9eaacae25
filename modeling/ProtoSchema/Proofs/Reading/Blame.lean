import ProtoSchema.Proofs.Reading.Value
import ProtoSchema.Proofs.Schema.Construction
import ProtoSchema.Reading.File

/-!
# What readers blame

A reader that fails blames the fault of the lexer, or a token that it has been shown, be it the one
it does not expect or the first one of a declaration that breaks a rule. `IsConfined` says so of a
reader on all rests of a stream. It is kept by all ways to put readers together, so it holds of each
reader as soon as it holds of its parts, and in the end of the reader of files.
-/

namespace ProtoSchema

open Reader

/-! ### Streams and their failures -/

/-- A token stands somewhere in a stream; the end mark is the last one. -/
def TokenStream.Shows (s : TokenStream) (t : Located) : Prop :=
  ∃ left, left <:+ s.tokens ∧ front? s.ending left = some t

/-- Whether a type or a service is declared with a keyword. -/
def Keyword.declares : Keyword → Bool
  | messageWord | enumWord | serviceWord => true
  | _ => false

/-- Whether a reader would have had less nesting. -/
def Expectation.isNesting : Expectation → Bool
  | nesting _ => true
  | _ => false

/-- Whether a reader would have had another token. -/
def Expectation.isSingle : Expectation → Bool
  | textLiteral _ | nesting _ => false
  | _ => true

/-- The bytes of the adjacent parts of a literal that tokens begin with. -/
def literalBytes : List Located → List UInt8
  | ⟨.str bytes, _, _⟩ :: ts => bytes ++ literalBytes ts
  | _ => []

/-- From some token of a stream on there is a literal of these bytes, which are no text. -/
def TokenStream.HasBadText (s : TokenStream) (t : Located) (bytes : List UInt8) : Prop :=
  ∃ behind, t :: behind <:+ s.tokens ∧ (∃ part, t.token = .str part) ∧
    bytes = literalBytes (t :: behind) ∧ Utf8.decode? bytes = none

/-- Failures that have their place in a stream. A nesting that is too deep is not among them. -/
structure TokenStream.Allows (s : TokenStream) (E : ReadError → Prop) : Prop where
  lexical {e : LexicalError} : s.ending = .failed e → E (.lexical e)
  unexpected {t : Located} {expected : Expectation} :
    s.Shows t → expected.isSingle = true →
      E (.unexpected ⟨t.position, expected, t.token⟩)
  /-- A literal that is no text is found with all its parts; none begins with a proper end mark. -/
  literal {t : Located} {role : TextRole} {bytes : List UInt8} :
    s.Shows t → (s.ending.IsProper → s.HasBadText t bytes) →
      E (.unexpected ⟨t.position, .textLiteral role, .str bytes⟩)
  violation {t : Located} {broken : Violation} : s.Shows t → E (.violation broken t.position)

/-- A nesting that is too deep may be blamed on each token. -/
def TokenStream.AllowsNesting (s : TokenStream) (E : ReadError → Prop) : Prop :=
  ∀ t limit, s.Shows t → E (.unexpected ⟨t.position, .nesting limit, t.token⟩)

namespace Reader

variable {α β : Type} {s : TokenStream} {E : ReadError → Prop} {P : α → Prop} {Q : β → Prop}
  {reader : Reader α}

/-- Something was read and a rest of the stream is left, or there is a failure of some kind. -/
inductive IsConfinedOutcome (s : TokenStream) (E : ReadError → Prop) (P : α → Prop) :
    Except ReadError (α × List Located) → Prop
  | ok {v : α} {rest : List Located} :
      P v → rest <:+ s.tokens → IsConfinedOutcome s E P (.ok (v, rest))
  | error {e : ReadError} : E e → IsConfinedOutcome s E P (.error e)

/-- On each rest of a stream a reader reads something of a kind and leaves a rest of the stream, or
it fails in one of certain ways. -/
def IsConfined (s : TokenStream) (E : ReadError → Prop) (P : α → Prop) (reader : Reader α) : Prop :=
  ∀ ts, ts <:+ s.tokens → IsConfinedOutcome s E P ((reader.run s.ending).run ts)

/-! ### Ways to put readers together -/

theorem confined_pure {v : α} (h : P v) : IsConfined s E P (pure v) :=
  fun _ stands => .ok h stands

theorem confined_throw {e : ReadError} (h : E e) : IsConfined s E P (throw e) :=
  fun _ _ => .error h

theorem IsConfined.bind {f : α → Reader β} (h : IsConfined s E P reader)
    (later : ∀ v, P v → IsConfined s E Q (f v)) : IsConfined s E Q (reader >>= f) := by
  intro ts stands
  have first := h ts stands
  rw [run_bind]
  generalize (reader.run s.ending).run ts = o at first
  cases first with
  | ok value rest => exact later _ value _ rest
  | error fails => exact .error fails

theorem IsConfined.mono {P' : α → Prop} (h : IsConfined s E P reader) (imp : ∀ v, P v → P' v) :
    IsConfined s E P' reader := by
  intro ts stands
  have outcome := h ts stands
  generalize (reader.run s.ending).run ts = o at outcome ⊢
  cases outcome with
  | ok value rest => exact .ok (imp _ value) rest
  | error fails => exact .error fails

/-- A reader of which nothing is asked but where it stops. -/
theorem IsConfined.any (h : IsConfined s E P reader) : IsConfined s E (fun _ => True) reader :=
  h.mono fun _ _ => trivial

/-- What is made of what was read blames nothing. -/
theorem IsConfined.finish (h : IsConfined s E P reader) (f : α → β) :
    IsConfined s E (fun _ => True) (reader >>= fun v => pure (f v)) :=
  h.bind fun _ _ => confined_pure trivial

theorem IsConfined.map {f : α → β} (h : IsConfined s E P reader) :
    IsConfined s E (fun _ => True) (f <$> reader) := by
  rw [← bind_pure_comp]
  exact h.finish f

theorem IsConfined.discard (h : IsConfined s E P reader) :
    IsConfined s E (fun _ => True) (discard reader) :=
  h.map

theorem IsConfined.many {item : Reader (Option α)} (h : IsConfined s E (∀ v ∈ ·, P v) item) :
    IsConfined s E (∀ v ∈ ·, P v) (many item) := by
  intro ts stands
  have first := h ts stands
  change IsConfinedOutcome _ _ _ (Reader.many item s.ending ts)
  rw [Reader.many.eq_def]
  generalize (item.run s.ending).run ts = o at first
  cases first with
  | error fails => exact .error fails
  | @ok v rest value left =>
    cases v with
    | none => exact .ok (List.forall_mem_nil _) left
    | some v =>
      have single := value v rfl
      -- The loop only goes on if the item took a token.
      by_cases progress : rest.length < ts.length
      · have more := IsConfined.many h rest left
        change IsConfinedOutcome _ _ _ (Reader.many item s.ending rest) at more
        simp only [if_pos progress]
        generalize Reader.many item s.ending rest = o at more
        cases more with
        | ok values after => exact .ok (List.forall_mem_cons.mpr ⟨single, values⟩) after
        | error fails => exact .error fails
      · simp only [if_neg progress]
        exact .ok (List.forall_mem_singleton.mpr single) left
termination_by ts => ts.length

/-- Items of which nothing is asked. -/
theorem IsConfined.many_any {item : Reader (Option α)}
    (h : IsConfined s E (fun _ => True) item) : IsConfined s E (fun _ => True) (Reader.many item) :=
  (IsConfined.many (P := fun _ => True) (h.mono fun _ _ _ _ => trivial)).any

/-! ### Single tokens -/

/-- A literal is read with all its parts, which are adjacent. -/
private theorem exists_literal_of_reads {ending : Ending} {expected : Expectation}
    {ts rest : List Located} {bytes : List UInt8} (proper : ending.IsProper)
    (reads : Reads (literal expected) ending ts bytes rest) :
    ∃ t behind, ts = t :: behind ∧ (∃ part, t.token = .str part) ∧
      bytes = literalBytes (t :: behind) := by
  obtain ⟨⟨ws, takes, phrase⟩, sees⟩ := (Reading.reads_literal_iff proper).mp reads
  clear reads
  have atEnd : literalBytes rest = [] := by
    cases rest with
    | nil => rfl
    | cons t rest =>
      obtain ⟨token, _, _⟩ := t
      rw [sees_cons_iff] at sees
      cases token <;> first | rfl | cases sees
  induction phrase generalizing ts with
  | @last bytes doc =>
    obtain ⟨⟨token, _, _⟩, rfl, word⟩ := takes_single_iff.mp takes
    obtain rfl : token = .str bytes := congrArg Word.token word
    exact ⟨_, rest, rfl, ⟨bytes, rfl⟩, by rw [literalBytes, atEnd, List.append_nil]⟩
  | @more bytes more doc ws _ ih =>
    obtain ⟨⟨token, _, _⟩, mid, rfl, word, later⟩ := takes_cons_iff.mp takes
    obtain rfl : token = .str bytes := congrArg Word.token word
    obtain ⟨t, behind, rfl, _, same⟩ := ih later
    exact ⟨_, t :: behind, rfl, ⟨bytes, rfl⟩, by rw [literalBytes, same]⟩

section Tokens

variable (allows : s.Allows E)

include allows

/-- A reader that shows the next token, whatever it leaves. -/
private theorem confined_look {look : Reader Located} (left : Located → List Located → List Located)
    (cons : ∀ t ending ts, (look.run ending).run (t :: ts) = .ok (t, left t ts))
    (nil : ∀ ending, (look.run ending).run [] = (peek.run ending).run [])
    (rest : ∀ t ts, left t ts <:+ t :: ts) : IsConfined s E s.Shows look := by
  intro ts stands
  cases ts with
  | cons t ts =>
    rw [cons]
    exact .ok ⟨_, stands, rfl⟩ ((rest t ts).trans stands)
  | nil =>
    rw [nil]
    -- Behind the last token the end mark is shown, unless the lexer stopped at a fault.
    cases ending : s.ending with
    | finished mark => exact .ok ⟨[], stands, by rw [ending]; rfl⟩ stands
    | failed e => exact .error (allows.lexical ending)

theorem confined_peek : IsConfined s E s.Shows peek :=
  confined_look allows List.cons run_peek_cons (fun _ => rfl) fun _ _ => List.suffix_refl _

theorem confined_next : IsConfined s E s.Shows next :=
  confined_look allows (fun _ ts => ts) run_next_cons (fun ending => by cases ending <;> rfl)
    fun _ _ => List.suffix_cons _ _

theorem confined_unexpected {t : Located} (shown : s.Shows t) (expected : Expectation)
    (single : expected.isSingle = true) :
    IsConfined s E P (unexpected t expected) :=
  confined_throw (allows.unexpected shown single)

/-- A check whose violation is at a token of the stream. -/
theorem confined_accept {t : Located} (shown : s.Shows t) (o : Except Violation α) :
    IsConfined s E (fun _ => True) (accept t.position o) := by
  cases o with
  | ok v => exact confined_pure trivial
  | error broken => exact confined_throw (allows.violation shown)

theorem confined_eat (m : Mark) : IsConfined s E (fun _ => True) (eat m) := by
  refine (confined_peek allows).bind fun t _ => ?_
  split
  · exact (confined_next allows).discard.finish _
  · exact confined_pure trivial

theorem confined_eatKeyword (k : Keyword) : IsConfined s E (fun _ => True) (eatKeyword k) := by
  refine (confined_peek allows).bind fun t _ => ?_
  split
  · exact (confined_next allows).discard.finish _
  · exact confined_pure trivial

theorem confined_expect (m : Mark) : IsConfined s E (fun _ => True) (expect m) := by
  refine (confined_next allows).bind fun t shown => ?_
  split
  · exact confined_pure trivial
  · exact confined_unexpected allows shown _ rfl

theorem confined_expectKeyword (k : Keyword) : IsConfined s E s.Shows (expectKeyword k) := by
  refine (confined_next allows).bind fun t shown => ?_
  split
  · exact confined_pure shown
  · exact confined_unexpected allows shown _ rfl

theorem confined_ident (expected : Expectation)
    (single : expected.isSingle = true) :
    IsConfined s E (fun _ => True) (ident expected) := by
  refine (confined_next allows).bind fun t shown => ?_
  split
  · exact confined_pure trivial
  · exact confined_unexpected allows shown _ single

theorem confined_plainName (expected : Expectation)
    (single : expected.isSingle = true) :
    IsConfined s E (fun _ => True) (plainName expected) := by
  refine (confined_next allows).bind fun t shown => ?_
  split
  · split
    · exact confined_pure trivial
    · exact confined_unexpected allows shown _ single
  · exact confined_unexpected allows shown _ single

theorem confined_int (expected : Expectation)
    (single : expected.isSingle = true) :
    IsConfined s E (fun _ => True) (int expected) := by
  refine (confined_next allows).bind fun t shown => ?_
  split
  · exact confined_pure trivial
  · exact confined_unexpected allows shown _ single

theorem confined_commaSeparated {item : Reader α} (h : IsConfined s E P item) :
    IsConfined s E (fun _ => True) (commaSeparated item) := by
  refine h.bind fun first _ => IsConfined.bind (IsConfined.many_any ?_) fun rest _ =>
    confined_pure trivial
  refine (confined_eat allows .comma).bind fun eaten _ => ?_
  split
  · exact h.finish _
  · exact confined_pure trivial

theorem confined_literal (expected : Expectation)
    (single : expected.isSingle = true) :
    IsConfined s E (fun _ => True) (literal expected) := by
  refine (confined_next allows).bind fun t shown => ?_
  split
  · refine IsConfined.bind (IsConfined.many_any ?_) fun _ _ => confined_pure trivial
    refine (confined_peek allows).bind fun t _ => ?_
    split
    · exact (confined_next allows).discard.finish _
    · exact confined_pure trivial
  · exact confined_unexpected allows shown _ single

theorem confined_textLiteral (role : TextRole) :
    IsConfined s E (fun _ => True) (textLiteral role) := by
  intro ts stands
  have first := confined_peek allows ts stands
  rw [textLiteral, run_bind]
  generalize look : (peek.run s.ending).run ts = o at first
  cases first with
  | error fails => exact .error fails
  | @ok t _ shown _ =>
    obtain ⟨seen, rfl⟩ := reads_peek_iff.mp look
    have whole := confined_literal allows (.literal role) rfl _ stands
    simp only
    rw [run_bind]
    generalize read : ((literal (.literal role)).run s.ending).run _ = o at whole
    cases whole with
    | error fails => exact .error fails
    | @ok bytes rest _ left =>
      simp only
      split
      next => exact .ok trivial left
      next noText =>
        refine .error (allows.literal shown fun proper => ?_)
        obtain ⟨t', behind, rfl, part, same⟩ := exists_literal_of_reads proper read
        cases seen
        exact ⟨behind, stands, part, same, noText⟩

end Tokens

end Reader

namespace Reading

variable {s : TokenStream} {E : ReadError → Prop} (allows : s.Allows E)

include allows

/-! ### Options -/

theorem confined_optionNameSuffixes : IsConfined s E (fun _ => True) optionNameSuffixes := by
  refine IsConfined.many_any ((confined_peek allows).bind fun t _ => ?_)
  split
  · split
    · exact (confined_next allows).discard.finish _
    · exact confined_pure trivial
  · exact confined_pure trivial

theorem confined_optionName : IsConfined s E (fun _ => True) optionName := by
  have path (base : String) : IsConfined s E (fun _ => True)
      (optionNameSuffixes >>= fun names => pure (base ++ String.join names)) :=
    (confined_optionNameSuffixes allows).finish _
  refine (confined_next allows).bind fun t shown => ?_
  split
  · exact IsConfined.bind (confined_pure (P := fun _ => True) trivial) fun base _ => path base
  · refine IsConfined.bind (P := fun _ => True) ?_ fun base _ => path base
    exact (confined_ident allows _ rfl).bind fun _ _ => (confined_expect allows _).finish _
  · exact IsConfined.bind (confined_unexpected allows shown _ rfl (P := fun _ => True))
      fun base _ => path base

theorem confined_mapKey : IsConfined s E (fun _ => True) mapKey := by
  refine (confined_eat allows _).bind fun eaten _ => ?_
  split
  · exact (confined_ident allows _ rfl).bind fun _ _ => (confined_expect allows _).finish _
  · exact confined_optionName allows

section Values

variable {item : Reader Value} (h : IsConfined s E (fun _ => True) item)

include h

theorem confined_listItems : IsConfined s E (fun _ => True) (listItems item) := by
  refine (confined_eat allows _).bind fun eaten _ => ?_
  split
  · exact confined_pure trivial
  · exact (confined_commaSeparated allows h).bind fun _ _ => (confined_expect allows _).finish _

theorem confined_mapValue : IsConfined s E (fun _ => True) (mapValue item) := by
  refine (confined_eat allows _).bind fun eaten _ => ?_
  split
  · exact h
  · refine (confined_peek allows).bind fun t shown => ?_
    split
    · exact h
    · exact confined_unexpected allows shown _ rfl

theorem confined_mapEntries (close : Mark) :
    IsConfined s E (fun _ => True) (mapEntries item close) := by
  refine IsConfined.many_any ((confined_eat allows _).bind fun closed _ => ?_)
  split
  · exact confined_pure trivial
  · refine (confined_mapKey allows).bind fun name _ => (confined_mapValue allows h).bind
      fun v _ => (confined_eat allows _).bind fun eaten _ => ?_
    split
    · exact confined_pure trivial
    · exact (confined_eat allows _).discard.finish _

theorem confined_bracketed (bracket : Bracket) :
    IsConfined s E (fun _ => True) (bracketed item bracket) := by
  cases bracket with
  | list => exact (confined_listItems allows h).map
  | braces => exact (confined_mapEntries allows h _).map
  | angles => exact (confined_mapEntries allows h _).map

end Values

theorem confined_valueWith {composite : Located → Bracket → Reader Value}
    (h : ∀ t bracket, s.Shows t → IsConfined s E (fun _ => True) (composite t bracket)) :
    IsConfined s E (fun _ => True) (valueWith composite) := by
  refine (confined_peek allows).bind fun t _ => ?_
  split
  · exact (confined_literal allows _ rfl).finish _
  · refine (confined_next allows).bind fun t shown => ?_
    split
    · exact confined_pure trivial
    · exact confined_pure trivial
    · exact confined_pure trivial
    · split
      · exact h t _ shown
      · exact confined_unexpected allows shown _ rfl
    · exact confined_unexpected allows shown _ rfl

/-! ### Extensions and parts of files -/

theorem confined_rangeEnd (first : Int) : IsConfined s E (fun _ => True) (rangeEnd first) := by
  refine (confined_eatKeyword allows _).bind fun eaten _ => ?_
  split
  · refine (confined_eatKeyword allows _).bind fun eaten _ => ?_
    split
    · exact confined_pure trivial
    · exact confined_int allows _ rfl
  · exact confined_pure trivial

theorem confined_extensions : IsConfined s E (fun _ => True) extensions := by
  have range (doc : String) : IsConfined s E (fun _ => True) (extensionRange doc) :=
    (confined_peek allows).bind fun t shown => (confined_int allows _ rfl).bind fun _ _ =>
      (confined_rangeEnd allows _).bind fun _ _ => confined_accept allows shown _
  exact (confined_expectKeyword allows _).bind fun _ _ =>
    (confined_commaSeparated allows (range _)).bind fun _ _ => (confined_expect allows _).finish _

theorem confined_importStatement :
    IsConfined s E (fun v => v.declared? = none) importStatement :=
  (confined_next allows).discard.bind fun _ _ => (confined_eatKeyword allows _).bind fun _ _ =>
    (confined_textLiteral allows _).bind fun _ _ => (confined_expect allows _).bind fun _ _ =>
      confined_pure rfl

theorem confined_versionStatement? : IsConfined s E (fun _ => True) versionStatement? := by
  refine (confined_eatKeyword allows _).bind fun eaten _ => ?_
  split
  · exact (confined_expect allows _).bind fun _ _ => (confined_peek allows).bind fun t shown =>
      (confined_textLiteral allows _).bind fun _ _ => (confined_expect allows _).bind fun _ _ =>
        (confined_accept allows shown _).finish _
  · exact confined_pure trivial

/-- A package declaration is placed at its keyword. -/
theorem confined_packageStatement? :
    IsConfined s E (∀ p ∈ ·, ∃ t, s.Shows t ∧ p.1 = t.position) packageStatement? := by
  refine (confined_peek allows).bind fun t shown => (confined_eatKeyword allows _).bind
    fun eaten _ => ?_
  split
  · refine (confined_ident allows _ rfl).bind fun _ _ => (confined_expect allows _).bind fun _ _ =>
      confined_pure ?_
    intro p same
    cases same
    exact ⟨t, shown, rfl⟩
  · exact confined_pure nofun

section Nesting

variable (deep : s.AllowsNesting E)

include deep

omit allows in
theorem confined_tooDeep {α : Type} {t : Located} (shown : s.Shows t) :
    IsConfined s E (fun _ => True) (tooDeep t : Reader α) :=
  confined_throw (deep t nestingLimit shown)

theorem confined_value (budget : Nat) : IsConfined s E (fun _ => True) (value budget) := by
  induction budget with
  | zero => exact confined_valueWith allows fun t _ shown => confined_tooDeep deep shown
  | succ budget ih =>
    exact confined_valueWith allows fun _ bracket _ => confined_bracketed allows ih bracket

theorem confined_setting (budget : Nat) : IsConfined s E (fun _ => True) (setting budget) :=
  (confined_optionName allows).bind fun _ _ => (confined_expect allows _).bind fun _ _ =>
    (confined_value allows deep budget).finish _

theorem confined_optionStatement (budget : Nat) :
    IsConfined s E (fun _ => True) (optionStatement budget) :=
  (confined_setting allows deep budget).bind fun _ _ => (confined_expect allows _).finish _

/-- An option statement as a statement of some kind. -/
theorem confined_optionWord {α : Type} (budget : Nat) (of : Setting → α) :
    IsConfined s E (fun _ => True) (do
      discard next
      return some (of (← optionStatement budget))) :=
  (confined_next allows).discard.bind fun _ _ =>
    (confined_optionStatement allows deep budget).finish _

theorem confined_bracketOptions (budget : Nat) :
    IsConfined s E (fun _ => True) (bracketOptions budget) := by
  refine (confined_eat allows _).bind fun eaten _ => ?_
  split
  · exact (confined_commaSeparated allows (confined_setting allows deep budget)).bind fun _ _ =>
      (confined_expect allows _).finish _
  · exact confined_pure trivial

/-! ### Fields, enums and services -/

theorem confined_fieldRest (budget : Nat) {start : Located} (shown : s.Shows start)
    (label : Label) (typeName : String) :
    IsConfined s E (fun _ => True) (fieldRest budget start label typeName) :=
  (confined_plainName allows _ rfl).bind fun _ _ => (confined_expect allows _).bind fun _ _ =>
    (confined_int allows _ rfl).bind fun _ _ => (confined_bracketOptions allows deep budget).bind
      fun _ _ => (confined_expect allows _).bind fun _ _ => confined_accept allows shown _

theorem confined_labelledField (budget : Nat) (label : Label) :
    IsConfined s E (fun _ => True) (labelledField budget label) :=
  (confined_next allows).bind fun _ shown => (confined_ident allows _ rfl).bind fun _ _ =>
    confined_fieldRest allows deep budget shown _ _

theorem confined_mapField (budget : Nat) : IsConfined s E (fun _ => True) (mapField budget) :=
  (confined_next allows).bind fun _ shown => (confined_expect allows _).bind fun _ _ =>
    (confined_ident allows _ rfl).bind fun _ _ => (confined_expect allows _).bind fun _ _ =>
      (confined_ident allows _ rfl).bind fun _ _ => (confined_expect allows _).bind fun _ _ =>
        confined_fieldRest allows deep budget shown _ _

theorem confined_extendBlock (budget : Nat) :
    IsConfined s E (fun _ => True) (extendBlock budget) := by
  have statement : IsConfined s E (fun _ => True) (extendStatement budget) := by
    refine (confined_peek allows).bind fun t shown => ?_
    split
    · exact confined_pure trivial
    · exact (confined_next allows).discard.finish _
    · split
      · exact (confined_labelledField allows deep budget _).finish _
      · exact confined_unexpected allows shown _ rfl
  exact (confined_expectKeyword allows _).bind fun _ shown => (confined_ident allows _ rfl).bind
    fun _ _ => (confined_expect allows _).bind fun _ _ => statement.many_any.bind fun _ _ =>
      (confined_expect allows _).bind fun _ _ => confined_accept allows shown _

theorem confined_enumType (budget : Nat) (scope : Scope) :
    IsConfined s E (fun _ => True) (enumType budget scope) := by
  have value : IsConfined s E (fun _ => True) (enumValue budget) :=
    (confined_peek allows).bind fun _ shown => (confined_plainName allows _ rfl).bind fun _ _ =>
      (confined_expect allows _).bind fun _ _ => (confined_int allows _ rfl).bind fun _ _ =>
        (confined_bracketOptions allows deep budget).bind fun _ _ =>
          (confined_expect allows _).bind fun _ _ => confined_accept allows shown _
  have statement : IsConfined s E (fun _ => True) (enumStatement budget) := by
    refine (confined_peek allows).bind fun t shown => ?_
    split
    · exact confined_pure trivial
    · exact (confined_next allows).discard.finish _
    · split
      · exact confined_optionWord allows deep budget _
      · exact value.finish _
    · exact confined_unexpected allows shown _ rfl
  exact (confined_expectKeyword allows _).bind fun _ shown => (confined_plainName allows _ rfl).bind
    fun _ _ => (confined_expect allows _).bind fun _ _ => statement.many_any.bind fun _ _ =>
      (confined_expect allows _).bind fun _ _ => confined_accept allows shown _

theorem confined_rpcOptions (budget : Nat) :
    IsConfined s E (fun _ => True) (rpcOptions budget) := by
  have statement : IsConfined s E (fun _ => True) (rpcStatement budget) := by
    refine (confined_peek allows).bind fun t shown => ?_
    split
    · exact confined_pure trivial
    · exact (confined_next allows).discard.finish _
    · split
      · exact confined_optionWord allows deep budget _
      · exact confined_unexpected allows shown _ rfl
  refine (confined_eat allows _).bind fun eaten _ => ?_
  split
  · exact statement.many_any.bind fun _ _ => (confined_expect allows _).bind fun _ _ =>
      (confined_eat allows _).discard.finish _
  · exact (confined_expect allows _).finish _

theorem confined_rpc (budget : Nat) : IsConfined s E (fun _ => True) (rpc budget) :=
  (confined_expectKeyword allows _).bind fun _ shown => (confined_plainName allows _ rfl).bind
    fun _ _ => (confined_expect allows _).bind fun _ _ => (confined_ident allows _ rfl).bind
      fun _ _ => (confined_expect allows _).bind fun _ _ =>
        (confined_expectKeyword allows _).discard.bind fun _ _ =>
          (confined_expect allows _).bind fun _ _ => (confined_ident allows _ rfl).bind fun _ _ =>
            (confined_expect allows _).bind fun _ _ =>
              (confined_rpcOptions allows deep budget).bind fun _ _ =>
                confined_accept allows shown _

theorem confined_service (budget : Nat) (scope : Scope) :
    IsConfined s E (fun _ => True) (service budget scope) := by
  have statement : IsConfined s E (fun _ => True) (serviceStatement budget) := by
    refine (confined_peek allows).bind fun t shown => ?_
    split
    · exact confined_pure trivial
    · exact (confined_next allows).discard.finish _
    · split
      · exact confined_optionWord allows deep budget _
      · exact (confined_rpc allows deep budget).finish _
      · exact confined_unexpected allows shown _ rfl
  exact (confined_expectKeyword allows _).bind fun _ shown => (confined_plainName allows _ rfl).bind
    fun _ _ => (confined_expect allows _).bind fun _ _ => statement.many_any.bind fun _ _ =>
      (confined_expect allows _).bind fun _ _ => confined_accept allows shown _

/-! ### Messages -/

theorem confined_messageStatement {reader : Reader Message}
    (h : IsConfined s E (fun _ => True) reader) (budget : Nat) (scope : Scope) :
    IsConfined s E (fun _ => True) (messageStatement reader budget scope) := by
  refine (confined_peek allows).bind fun t shown => ?_
  split
  · exact confined_pure trivial
  · exact (confined_next allows).discard.finish _
  · split
    · exact (confined_mapField allows deep budget).finish _
    split
    · exact h.finish _
    · exact (confined_enumType allows deep budget scope).finish _
    · exact (confined_extendBlock allows deep budget).finish _
    · exact (confined_extensions allows).finish _
    · exact confined_optionWord allows deep budget _
    · split
      · exact (confined_labelledField allows deep budget _).finish _
      · exact confined_unexpected allows shown _ rfl
    · exact confined_unexpected allows shown _ rfl
  · exact confined_unexpected allows shown _ rfl

theorem confined_message (budget : Nat) (scope : Scope) :
    IsConfined s E (fun _ => True) (message budget scope) := by
  induction budget generalizing scope with
  | zero => exact (confined_expectKeyword allows _).bind fun _ shown => confined_tooDeep deep shown
  | succ budget ih =>
    exact (confined_expectKeyword allows _).bind fun _ shown => (confined_plainName allows _ rfl).bind
      fun name _ => (confined_expect allows _).bind fun _ _ =>
        (confined_messageStatement allows deep (ih _) budget _).many_any.bind fun _ _ =>
          (confined_expect allows _).bind fun _ _ => confined_accept allows shown _

/-! ### Files -/

/-- What a statement declares is placed at the keyword for it. -/
def FileStatement.IsPlaced (s : TokenStream) (statement : FileStatement) : Prop :=
  ∀ declared ∈ statement.declared?, ∃ t k, s.Shows t ∧ t.token.keyword? = some k ∧
    k.declares = true ∧ declared.2 = t.position

theorem confined_fileStatement (budget : Nat) (scope : Scope) :
    IsConfined s E (∀ v ∈ ·, v.IsPlaced s) (fileStatement budget scope) := by
  -- What declares nothing is placed anywhere.
  have silent {v : FileStatement} (nothing : v.declared? = none) :
      IsConfined s E (∀ v ∈ ·, v.IsPlaced s) (pure (some v)) := by
    refine confined_pure ?_
    rintro _ ⟨⟩ declared same
    rw [nothing] at same
    cases same
  have declares {t : Located} (shown : s.Shows t) {k : Keyword} (word : t.token.keyword? = some k)
      (known : k.declares = true) {v : FileStatement} {name : String}
      (named : v.declared? = some (name, t.position)) :
      IsConfined s E (∀ v ∈ ·, v.IsPlaced s) (pure (some v)) := by
    refine confined_pure ?_
    rintro _ ⟨⟩ declared same
    rw [named] at same
    cases same
    exact ⟨t, k, shown, word, known, rfl⟩
  refine (confined_peek allows).bind fun t shown => ?_
  split
  · exact confined_pure nofun
  split
  · exact (confined_next allows).discard.bind fun _ _ => silent rfl
  split
  · exact confined_pure nofun
  · exact (confined_importStatement allows).bind fun _ nothing => silent nothing
  · exact (confined_next allows).discard.bind fun _ _ =>
      (confined_optionStatement allows deep budget).bind fun _ _ => silent rfl
  next word =>
    exact (confined_message allows deep budget scope).bind fun _ _ => declares shown word rfl rfl
  next word =>
    exact (confined_enumType allows deep budget scope).bind fun _ _ => declares shown word rfl rfl
  · exact (confined_extendBlock allows deep budget).bind fun _ _ => silent rfl
  next word =>
    exact (confined_service allows deep budget scope).bind fun _ _ => declares shown word rfl rfl
  · exact confined_unexpected allows shown _ rfl

theorem confined_statementsOf (budget : Nat) (package : String) :
    IsConfined s E (∀ v ∈ ·, v.IsPlaced s) (statementsOf budget package) := by
  refine (confined_fileStatement allows deep budget _).many.bind fun statements placed =>
    (confined_packageStatement? allows).bind fun again place => ?_
  cases again with
  | none => exact confined_pure placed
  | some p =>
    obtain ⟨t, shown, same⟩ := place p rfl
    simp only [same]
    exact confined_throw (allows.violation shown)

theorem confined_fileText (budget : Nat) :
    IsConfined s E (∀ v ∈ ·.statements, v.IsPlaced s) (fileText budget) := by
  refine (confined_versionStatement? allows).bind fun version _ =>
    (confined_fileStatement allows deep budget _).many.bind fun before placed =>
      (confined_packageStatement? allows).bind fun package _ => ?_
  cases package with
  | none =>
    refine confined_pure ?_
    simpa [FileText.statements] using placed
  | some p =>
    refine (confined_statementsOf allows deep budget _).bind fun behind placed' =>
      confined_pure ?_
    -- The statements of the file are those on both sides of the package.
    intro v member
    exact (List.mem_append.mp member).elim (placed v) (placed' v)

end Nesting

end Reading

/-! ### Clashes of names -/

theorem exists_of_firstFault?_eq_some {α β : Type} {fault? : List α → α → Option β}
    {earlier xs : List α} {fault : β} (h : firstFault? fault? earlier xs = some fault) :
    ∃ before x, x ∈ xs ∧ fault? before x = some fault := by
  induction xs generalizing earlier with
  | nil => cases h
  | cons x xs ih =>
    rw [firstFault?] at h
    split at h
    next found =>
      cases h
      exact ⟨earlier, x, List.mem_cons_self, found⟩
    next =>
      obtain ⟨before, y, member, found⟩ := ih h
      exact ⟨before, y, List.mem_cons_of_mem x member, found⟩

theorem mem_of_firstRepeat? {taken names : List String} {name : String}
    (h : firstRepeat? taken names = some name) : name ∈ names := by
  obtain ⟨before, x, member, found⟩ := exists_of_firstFault?_eq_some h
  split at found
  · cases found
    exact member
  · cases found

namespace Reading.FileText

variable {f : FileText} {s : TokenStream}

/-- The names that a file must keep apart are those that its statements declare. -/
theorem exists_declared_of_mem {name : String}
    (member : name ∈ f.body.types.map (·.name) ++ f.body.services.map (·.name)) :
    ∃ declared ∈ f.statements.filterMap FileStatement.declared?, declared.1 = name := by
  simp only [List.mem_append, List.mem_map] at member
  rcases member with ⟨t, picked, rfl⟩ | ⟨v, picked, rfl⟩
  · obtain ⟨statement, stands, type⟩ := List.mem_filterMap.mp picked
    cases statement <;> cases type
    exact ⟨_, List.mem_filterMap.mpr ⟨_, stands, rfl⟩, rfl⟩
  · obtain ⟨statement, stands, service⟩ := List.mem_filterMap.mp picked
    cases statement <;> cases service
    exact ⟨_, List.mem_filterMap.mpr ⟨_, stands, rfl⟩, rfl⟩

/-- As a whole a file is refused only for a name that one of its statements declares. -/
theorem exists_declared_of_make {name : String} {broken : Violation}
    (refused : SchemaFile.make name f.body = .error broken) :
    ∃ scopeName, ∃ declared ∈ f.statements.filterMap FileStatement.declared?,
      broken = .duplicateName scopeName declared.1 := by
  unfold SchemaFile.make at refused
  cases found : firstRepeat? [] (f.body.types.map (·.name) ++ f.body.services.map (·.name)) with
  | none =>
    rw [found] at refused
    cases refused
  | some repeated =>
    rw [found] at refused
    cases refused
    obtain ⟨declared, member, rfl⟩ := exists_declared_of_mem (mem_of_firstRepeat? found)
    exact ⟨_, declared, member, rfl⟩

/-- A clash is placed at the last declaration of the name. -/
theorem exists_clash_of_make {name : String} {broken : Violation}
    (refused : SchemaFile.make name f.body = .error broken) :
    ∃ scopeName declared, broken = .duplicateName scopeName declared.1 ∧
      (f.statements.filterMap FileStatement.declared?).reverse.find? (·.1 = declared.1) =
        some declared ∧ f.positionOf broken = declared.2 := by
  obtain ⟨scopeName, declared, member, rfl⟩ := exists_declared_of_make refused
  cases found : (f.statements.filterMap FileStatement.declared?).reverse.find?
      (·.1 = declared.1) with
  | some last =>
    have same : last.1 = declared.1 := by simpa using List.find?_some found
    exact ⟨scopeName, last, by rw [same], by rw [same, found], by simp [positionOf, found]⟩
  | none =>
    -- The search does not fail, for the name is one of those that are declared.
    have other := List.find?_eq_none.mp found declared (List.mem_reverse.mpr member)
    exact absurd (decide_eq_true rfl) other

/-- The last declaration of a name stands at the keyword for it. -/
theorem exists_token_of_find? (placed : ∀ v ∈ f.statements, v.IsPlaced s)
    {declared : String × Position} {name : String}
    (found : (f.statements.filterMap FileStatement.declared?).reverse.find? (·.1 = name) =
      some declared) :
    ∃ t k, s.Shows t ∧ t.token.keyword? = some k ∧ k.declares = true ∧
      declared.2 = t.position := by
  obtain ⟨statement, stands, declares⟩ :=
    List.mem_filterMap.mp (List.mem_reverse.mp (List.mem_of_find?_eq_some found))
  exact placed statement stands _ declares

end Reading.FileText

namespace Reading

variable {s : TokenStream} {E : ReadError → Prop}

/-- The reader of files fails with a fault of the lexer or blames a token that it was shown. -/
theorem confined_file (allows : s.Allows E) (deep : s.AllowsNesting E) (budget : Nat)
    (name : String) : IsConfined s E (fun _ => True) (file budget name) := by
  refine (confined_fileText allows deep budget).bind fun f placed => ?_
  split
  · exact confined_pure trivial
  next broken refused =>
    obtain ⟨_, declared, _, last, same⟩ := FileText.exists_clash_of_make refused
    obtain ⟨t, _, shown, _, _, start⟩ := FileText.exists_token_of_find? placed last
    rw [same, start]
    exact confined_accept allows shown _

end Reading

end ProtoSchema
