import Mathlib.Data.List.Forall2
import Mathlib.Data.Option.Basic
import ProtoSchema.Proofs.Lexing.Layout
import ProtoSchema.Reading.Reader

/-!
# Readers on two token streams

A reader is run on two streams, the second of which begins with the tokens of the first one, up to
documentation and places. `Simulation` fixes what is kept of these and how the streams end.
`Mirrors` says that two readers go the same way: they read alike values and stop at the same place,
or fail alike. It is kept by all ways to put readers together, so it holds of a reader as soon as it
holds of its parts. There are two uses: the streams may have the same length, or the first one may
be cut off, and then the second reader may do anything once the first one misses a token.
-/

namespace ProtoSchema

open Reader

/-- What is kept of documentation and places, and what else is known of two tokens one of which
stands for the other. -/
structure Comparison where
  doc : String → String
  place : Position → Position
  place_start : place .start = .start
  linked : Located → Located → Prop

namespace Comparison

/-- Everything is kept. -/
def exact (linked : Located → Located → Prop) : Comparison where
  doc := id
  place := id
  place_start := rfl
  linked := linked

/-- Two tokens that differ in nothing that is kept. -/
structure Same (c : Comparison) (t t' : Located) : Prop where
  token : t'.token = t.token
  position : c.place t'.position = c.place t.position
  doc : c.doc (docOf t') = c.doc (docOf t)
  linked : c.linked t t'

/-- Two failures that differ in nothing that is kept. -/
inductive Fails (c : Comparison) : ReadError → ReadError → Prop
  | lexical {e e' : LexicalError} :
      e'.cause = e.cause → c.place e'.position = c.place e.position →
      Fails c (.lexical e) (.lexical e')
  | unexpected {t t' : Located} {expected : Expectation} {found : Token} :
      c.Same t t' → Fails c (.unexpected ⟨t.position, expected, found⟩)
        (.unexpected ⟨t'.position, expected, found⟩)
  | violation {broken : Violation} {position position' : Position} :
      c.place position' = c.place position →
      Fails c (.violation broken position) (.violation broken position')

end Comparison

/-- How two streams end that begin with the same tokens. Either they end alike, or the first one is
cut off by a fault while the second one may go on. -/
structure Simulation extends Comparison where
  ending : Ending
  ending' : Ending
  /-- What the second stream has behind the tokens of the first one. -/
  more : List Located
  isCut : Prop
  ends : (more = [] ∧ ending.Matches toComparison.Same place ending') ∨
    (isCut ∧ ∃ e, ending = .failed e)

/-- Two values that are the same under a function. -/
def Alike {α β : Type} (f : α → β) (v w : α) : Prop := f w = f v

namespace Simulation

variable (s : Simulation) {α β γ δ : Type}

/-- The second stream begins with the tokens of the first one. -/
def Related (ts ts' : List Located) : Prop :=
  ∃ used, ts' = used ++ s.more ∧ List.Forall₂ s.Same ts used

/-- Two readers have read alike values or fail alike, or the first one is cut off. -/
inductive Outcome (R : α → β → Prop) :
    Except ReadError (α × List Located) → Except ReadError (β × List Located) → Prop
  | ok {v : α} {w : β} {rest rest' : List Located} :
      R v w → s.Related rest rest' → Outcome R (.ok (v, rest)) (.ok (w, rest'))
  | error {e e' : ReadError} : s.Fails e e' → Outcome R (.error e) (.error e')
  | cut {e : LexicalError} (o : Except ReadError (β × List Located)) :
      s.isCut → s.ending = .failed e → Outcome R (.error (.lexical e)) o

/-- Two readers go the same way on related streams. -/
def Mirrors (R : α → β → Prop) (r : Reader α) (r' : Reader β) : Prop :=
  ∀ ts ts', s.Related ts ts' →
    s.Outcome R ((r.run s.ending).run ts) ((r'.run s.ending').run ts')

variable {s} {R : α → β → Prop} {S : γ → δ → Prop} {r : Reader α} {r' : Reader β}

theorem Related.length_lt_iff {ts ts' rest rest' : List Located} (h : s.Related ts ts')
    (h' : s.Related rest rest') : rest'.length < ts'.length ↔ rest.length < ts.length := by
  obtain ⟨used, rfl, same⟩ := h
  obtain ⟨used', rfl, same'⟩ := h'
  simp only [List.length_append, same.length_eq, same'.length_eq]
  omega

/-! ### Ways to put readers together -/

theorem mirrors_pure {v : α} {w : β} (h : R v w) : s.Mirrors R (pure v) (pure w) :=
  fun _ _ related => .ok h related

theorem mirrors_throw {e e' : ReadError} (h : s.Fails e e') :
    s.Mirrors R (throw e) (throw e') :=
  fun _ _ _ => .error h

theorem Mirrors.bind {f : α → Reader γ} {f' : β → Reader δ} (h : s.Mirrors R r r')
    (later : ∀ v w, R v w → s.Mirrors S (f v) (f' w)) : s.Mirrors S (r >>= f) (r' >>= f') := by
  intro ts ts' related
  have first := h ts ts' related
  rw [run_bind, run_bind]
  generalize (r.run s.ending).run ts = o, (r'.run s.ending').run ts' = o' at first
  cases first with
  | ok value rest => exact later _ _ value _ _ rest
  | error fails => exact .error fails
  | cut o isCut ending => exact .cut _ isCut ending

theorem Mirrors.mono {R' : α → β → Prop} (h : s.Mirrors R r r') (imp : ∀ v w, R v w → R' v w) :
    s.Mirrors R' r r' := by
  intro ts ts' related
  have outcome := h ts ts' related
  generalize (r.run s.ending).run ts = o, (r'.run s.ending').run ts' = o' at outcome ⊢
  cases outcome with
  | ok value rest => exact .ok (imp _ _ value) rest
  | error fails => exact .error fails
  | cut o isCut ending => exact .cut _ isCut ending

theorem Mirrors.map {f : α → γ} {f' : β → δ} (h : s.Mirrors R r r')
    (keeps : ∀ v w, R v w → S (f v) (f' w)) : s.Mirrors S (f <$> r) (f' <$> r') := by
  rw [← bind_pure_comp, ← bind_pure_comp]
  exact h.bind fun v w value => mirrors_pure (keeps v w value)

theorem Mirrors.discard (h : s.Mirrors R r r') :
    s.Mirrors Eq (discard r) (discard r') :=
  h.map fun _ _ _ => rfl

/-! ### Single tokens -/

variable {t t' : Located}

/-- A reader that shows the next token, whatever it leaves. -/
private theorem mirrors_look {look : Reader Located} (left : Located → List Located → List Located)
    (cons : ∀ t ending ts, (look.run ending).run (t :: ts) = .ok (t, left t ts))
    (nil : ∀ ending, (look.run ending).run [] = (peek.run ending).run [])
    (related : ∀ {t t' ts ts'}, s.Same t t' → s.Related ts ts' →
      s.Related (left t ts) (left t' ts')) :
    s.Mirrors s.Same look look := by
  rintro ts ts' ⟨used, rfl, same⟩
  cases same with
  | cons first same =>
    rw [List.cons_append, cons, cons]
    exact .ok first (related first ⟨_, rfl, same⟩)
  | nil =>
    rcases s.ends with ⟨more, ends⟩ | ⟨isCut, e, ending⟩
    · rw [List.nil_append, more, nil, nil]
      generalize s.ending = ending, s.ending' = ending' at ends
      cases ends with
      | finished mark => exact .ok mark ⟨[], more.symm, .nil⟩
      | failed cause position => exact .error (.lexical cause position)
    · -- Nothing is asked of the second reader where the first one misses a token.
      have missing : (peek.run s.ending).run [] = .error (.lexical e) := by rw [ending]; rfl
      rw [nil, missing]
      exact .cut _ isCut ending

theorem mirrors_peek : s.Mirrors s.Same peek peek :=
  mirrors_look List.cons run_peek_cons (fun _ => rfl) fun first related => by
    obtain ⟨used, rfl, same⟩ := related
    exact ⟨_ :: used, rfl, .cons first same⟩

theorem mirrors_next : s.Mirrors s.Same next next :=
  mirrors_look (fun _ ts => ts) run_next_cons (fun ending => by cases ending <;> rfl)
    fun _ related => related

theorem mirrors_unexpected (same : s.Same t t') (expected : Expectation) :
    s.Mirrors R (unexpected t expected) (unexpected t' expected) := by
  unfold unexpected
  rw [same.token]
  exact mirrors_throw (.unexpected same)

/-- Checks with alike outcomes. -/
theorem mirrors_accept {f : α → γ} {o o' : Except Violation α} {position position' : Position}
    (outcome : o'.map f = o.map f) (place : s.place position' = s.place position) :
    s.Mirrors (Alike f) (accept position o) (accept position' o') := by
  -- A check fails in both readers, with the same fault, or in none.
  cases o with
  | error broken =>
    cases o' with
    | error broken' =>
      cases outcome
      exact mirrors_throw (.violation place)
    | ok _ => cases outcome
  | ok v =>
    cases o' with
    | error _ => cases outcome
    | ok w => exact mirrors_pure (Except.ok.inj outcome)

theorem mirrors_eat (m : Mark) : s.Mirrors Eq (eat m) (eat m) := by
  refine mirrors_peek.bind fun t t' same => ?_
  rw [same.token]
  split
  · exact mirrors_next.discard.bind fun _ _ _ => mirrors_pure rfl
  · exact mirrors_pure rfl

theorem mirrors_eatKeyword (k : Keyword) : s.Mirrors Eq (eatKeyword k) (eatKeyword k) := by
  refine mirrors_peek.bind fun t t' same => ?_
  rw [same.token]
  split
  · exact mirrors_next.discard.bind fun _ _ _ => mirrors_pure rfl
  · exact mirrors_pure rfl

/-- What is read next depends on whether something was eaten. -/
theorem Mirrors.branch {eater eater' : Reader Bool} {yes no : Reader α} {yes' no' : Reader β}
    (eaten : s.Mirrors Eq eater eater') (left : s.Mirrors R yes yes')
    (right : s.Mirrors R no no') :
    s.Mirrors R (eater >>= fun b => if b = true then yes else no)
      (eater' >>= fun b => if b = true then yes' else no') := by
  refine eaten.bind fun b b' same => ?_
  subst same
  split
  · exact left
  · exact right

theorem mirrors_expect (m : Mark) : s.Mirrors Eq (expect m) (expect m) := by
  refine mirrors_next.bind fun t t' same => ?_
  rw [same.token]
  split
  · exact mirrors_pure rfl
  · exact mirrors_unexpected same _

theorem mirrors_expectKeyword (k : Keyword) :
    s.Mirrors s.Same (expectKeyword k) (expectKeyword k) := by
  refine mirrors_next.bind fun t t' same => ?_
  rw [same.token]
  split
  · exact mirrors_pure same
  · exact mirrors_unexpected same _

theorem mirrors_ident (expected : Expectation) :
    s.Mirrors Eq (ident expected) (ident expected) := by
  refine mirrors_next.bind fun t t' same => ?_
  rw [same.token]
  split
  · exact mirrors_pure rfl
  · exact mirrors_unexpected same _

theorem mirrors_plainName (expected : Expectation) :
    s.Mirrors Eq (plainName expected) (plainName expected) := by
  refine mirrors_next.bind fun t t' same => ?_
  rw [same.token]
  split
  · split
    · exact mirrors_pure rfl
    · exact mirrors_unexpected same _
  · exact mirrors_unexpected same _

theorem mirrors_int (expected : Expectation) : s.Mirrors Eq (int expected) (int expected) := by
  refine mirrors_next.bind fun t t' same => ?_
  rw [same.token]
  split
  · exact mirrors_pure rfl
  · exact mirrors_unexpected same _

/-! ### Repetition -/

section Many

variable {item : Reader (Option α)} {item' : Reader (Option β)}

/-- Both readers take as many items: a round without progress is one in both streams. -/
theorem Mirrors.many (h : s.Mirrors (Option.Rel R) item item') :
    s.Mirrors (List.Forall₂ R) (many item) (many item') := by
  intro ts ts' related
  have first := h ts ts' related
  change s.Outcome _ (Reader.many item s.ending ts) (Reader.many item' s.ending' ts')
  rw [Reader.many.eq_def, Reader.many.eq_def item']
  generalize (item.run s.ending).run ts = o, (item'.run s.ending').run ts' = o' at first
  cases first with
  | error fails => exact .error fails
  | cut o isCut ending => exact .cut _ isCut ending
  | @ok v w rest rest' value left =>
    cases value with
    | none => exact .ok .nil left
    | @some v w value =>
      -- Related streams get shorter together, so the readers agree on whether there is progress.
      by_cases progress : rest.length < ts.length
      · have more := Mirrors.many h rest rest' left
        change s.Outcome _ (Reader.many item s.ending rest) (Reader.many item' s.ending' rest')
          at more
        simp only [if_pos progress, if_pos ((related.length_lt_iff left).mpr progress)]
        generalize Reader.many item s.ending rest = o, Reader.many item' s.ending' rest' = o'
          at more
        cases more with
        | ok values after => exact .ok (.cons value values) after
        | error fails => exact .error fails
        | cut o isCut ending => exact .cut _ isCut ending
      · simp only [if_neg progress, if_neg (mt (related.length_lt_iff left).mp progress)]
        exact .ok (.cons value .nil) left
termination_by ts => ts.length

/-- Items in which nothing is left out. -/
theorem Mirrors.many_eq {item item' : Reader (Option α)} (h : s.Mirrors Eq item item') :
    s.Mirrors Eq (Reader.many item) (Reader.many item') := by
  have items : s.Mirrors (Option.Rel Eq) item item' := h.mono fun v w same => by
    subst same
    cases v with
    | none => exact .none
    | some v => exact .some rfl
  refine items.many.mono fun vs ws same => ?_
  rwa [List.forall₂_eq_eq_eq] at same

theorem Mirrors.commaSeparated (h : s.Mirrors R r r') :
    s.Mirrors (List.Forall₂ R) (commaSeparated r) (commaSeparated r') := by
  refine h.bind fun v w first => Mirrors.bind (Mirrors.many ?_) fun vs ws rest =>
    mirrors_pure (.cons first rest)
  refine (mirrors_eat .comma).branch ?_ (mirrors_pure .none)
  exact h.bind fun v w value => mirrors_pure (.some value)

theorem Mirrors.commaSeparated_eq {r r' : Reader α} (h : s.Mirrors Eq r r') :
    s.Mirrors Eq (Reader.commaSeparated r) (Reader.commaSeparated r') := by
  refine h.commaSeparated.mono fun vs ws same => ?_
  rwa [List.forall₂_eq_eq_eq] at same

end Many

theorem alike_map {f : α → γ} {vs ws : List α} (h : List.Forall₂ (Alike f) vs ws) :
    Alike (List.map f) vs ws := by
  induction h with
  | nil => rfl
  | cons first _ ih => exact congrArg₂ List.cons first ih

/-! ### Literals -/

theorem mirrors_literal (expected : Expectation) :
    s.Mirrors Eq (literal expected) (literal expected) := by
  refine mirrors_next.bind fun t t' same => ?_
  rw [same.token]
  split
  · refine Mirrors.bind (Mirrors.many_eq ?_) fun parts _ sameParts => ?_
    · refine mirrors_peek.bind fun t t' same => ?_
      rw [same.token]
      split
      · exact mirrors_next.discard.bind fun _ _ _ => mirrors_pure rfl
      · exact mirrors_pure rfl
    · exact mirrors_pure (by rw [sameParts])
  · exact mirrors_unexpected same _

theorem mirrors_textLiteral (role : TextRole) :
    s.Mirrors Eq (textLiteral role) (textLiteral role) := by
  refine mirrors_peek.bind fun t t' same => (mirrors_literal _).bind fun bytes _ sameBytes => ?_
  subst sameBytes
  split
  · exact mirrors_pure rfl
  · exact mirrors_throw (.unexpected same)

end Simulation

end ProtoSchema
