import Mathlib.Data.List.Infix
import ProtoSchema.Proofs.Reading.Blame
import ProtoSchema.Proofs.Reading.Parse
import ProtoSchema.Reading.Unlimited

/-!
# The limit on nesting

A reader with a limit does what the reader without it does, up to the token by which that one opens
one level too many, and there it fails. `Follows` says so of two readers; it is kept by all ways to
put readers together. A reader that succeeds closes what it has opened, so what stands side by side
does not add up.
-/

namespace ProtoSchema

open Reader

/-! ### Levels -/

namespace NestingEvent

variable {room : Int} {events more : List NestingEvent} {t : Located}

@[simp] theorem level_nil : level [] = 0 := rfl

@[simp] theorem level_cons (event : NestingEvent) (events : List NestingEvent) :
    level (event :: events) = event.change + level events := rfl

@[simp] theorem level_append (events more : List NestingEvent) :
    level (events ++ more) = level events + level more := by
  induction events with
  | nil => simp
  | cons event events ih => rw [List.cons_append, level_cons, level_cons, ih, Int.add_assoc]

/-- Never more than so many are open. -/
def StaysWithin (room : Int) (events : List NestingEvent) : Prop :=
  ∀ front, front <+: events → level front ≤ room

instance (room : Int) (events : List NestingEvent) : Decidable (StaysWithin room events) :=
  decidable_of_iff (∀ front ∈ events.inits, level front ≤ room)
    (forall_congr' fun front => by rw [List.mem_inits])

/-- With so many open, and never more before, a token opens another one. -/
def Exceeds (room : Int) (events : List NestingEvent) (t : Located) : Prop :=
  ∃ before after, events = before ++ opened t :: after ∧ StaysWithin room before ∧
    level before = room

theorem staysWithin_nil_iff : StaysWithin room [] ↔ 0 ≤ room := by
  constructor
  · intro h
    exact h [] List.nil_prefix
  · intro h front leading
    rw [List.prefix_nil.mp leading]
    exact h

theorem staysWithin_cons_iff {event : NestingEvent} :
    StaysWithin room (event :: events) ↔ 0 ≤ room ∧ StaysWithin (room - event.change) events := by
  constructor
  · intro h
    refine ⟨h [] List.nil_prefix, fun front leading => ?_⟩
    have := h (event :: front) (List.cons_prefix_cons.mpr ⟨rfl, leading⟩)
    rw [level_cons] at this
    omega
  · rintro ⟨empty, h⟩ front leading
    cases front with
    | nil => exact empty
    | cons first front =>
      obtain ⟨rfl, behind⟩ := List.cons_prefix_cons.mp leading
      have := h front behind
      rw [level_cons]
      omega

theorem StaysWithin.append (h : StaysWithin room events)
    (h' : StaysWithin (room - level events) more) : StaysWithin room (events ++ more) := by
  -- The room changes with each event.
  induction events generalizing room with
  | nil => simpa using h'
  | cons event events ih =>
    obtain ⟨empty, h⟩ := staysWithin_cons_iff.mp h
    apply staysWithin_cons_iff.mpr
    refine ⟨empty, ih h ?_⟩
    rwa [level_cons, ← Int.sub_sub] at h'

theorem StaysWithin.behind (h : StaysWithin room events) (settled : level events = 0)
    (h' : StaysWithin room more) : StaysWithin room (events ++ more) := by
  apply h.append
  rwa [settled, Int.sub_zero]

theorem StaysWithin.nest (h : StaysWithin room events) :
    StaysWithin (room + 1) (opened t :: events) := by
  have empty := h [] List.nil_prefix
  rw [level_nil] at empty
  apply staysWithin_cons_iff.mpr
  refine ⟨by omega, ?_⟩
  rwa [change, Int.add_sub_cancel]

theorem Exceeds.append (h : Exceeds room events t) (more : List NestingEvent) :
    Exceeds room (events ++ more) t := by
  obtain ⟨before, after, rfl, fits, level⟩ := h
  exact ⟨before, after ++ more, by simp, fits, level⟩

theorem Exceeds.behind (h : Exceeds room more t) (fits : StaysWithin room events)
    (settled : level events = 0) : Exceeds room (events ++ more) t := by
  obtain ⟨before, after, rfl, fits', level⟩ := h
  refine ⟨events ++ before, after, by simp, fits.behind settled fits', ?_⟩
  rw [level_append, settled, level, Int.zero_add]

theorem Exceeds.nest {start : Located} (h : Exceeds room events t) :
    Exceeds (room + 1) (opened start :: events) t := by
  obtain ⟨before, after, rfl, fits, level⟩ := h
  refine ⟨opened start :: before, after, rfl, fits.nest, ?_⟩
  rw [level_cons, level, change, Int.add_comm]

/-- Where there is no room, a token that opens something is too much. -/
theorem exceeds_zero (t : Located) (events : List NestingEvent) :
    Exceeds 0 (opened t :: events) t :=
  ⟨[], events, rfl, staysWithin_nil_iff.mpr (Int.le_refl 0), rfl⟩

end NestingEvent

open NestingEvent

/-! ### Readers with and without a limit -/

/-- The failure at a token that opens one level too many. -/
def ReadError.tooDeep (t : Located) : ReadError :=
  .unexpected ⟨t.position, .nesting Reading.nestingLimit, t.token⟩

/-- Whether a failure is one of nesting. -/
def ReadError.isNesting : ReadError → Bool
  | unexpected error => error.expected.isNesting
  | _ => false

/-- Messages are opened by their keyword and values by a bracket. -/
def Token.IsOpener (t : Token) : Prop :=
  t = Keyword.token .messageWord ∨
    ∃ m bracket, t = .mark m ∧ Reading.Bracket.ofMark? m = some bracket

namespace Tracer

variable {α β : Type} {ending : Ending} {size room : Nat}

/-- What a reader does with so many levels left, beside what the reader without a limit does and its
record. -/
structure IsLimited (room size : Nat) (limited : Except ReadError (α × List Located))
    (traced : Except ReadError (α × List Located) × List NestingEvent) : Prop where
  settled : ∀ v rest, traced.1 = .ok (v, rest) → rest.length ≤ size ∧ level traced.2 = 0
  flat : ∀ e, traced.1 = .error e → e.isNesting = false
  openers : ∀ t, .opened t ∈ traced.2 → t.token.IsOpener
  same : (StaysWithin room traced.2 ∧ limited = traced.1) ∨
    ∃ t, Exceeds room traced.2 t ∧ limited = .error (.tooDeep t)

/-- What failed without the limit fails with it. -/
theorem IsLimited.failed {e : ReadError} {events : List NestingEvent}
    {o : Except ReadError (α × List Located)} {o' : Except ReadError (β × List Located)}
    (h : IsLimited room size o (.error e, events))
    (error : ∀ e, o = .error e → o' = .error e) : IsLimited room size o' (.error e, events) := by
  refine ⟨(fun _ _ read => nomatch read), ?_, h.openers, ?_⟩
  · rintro _ ⟨⟩
    exact h.flat e rfl
  · rcases h.same with ⟨fits, same⟩ | ⟨t, exceeds, same⟩
    · exact .inl ⟨fits, error e same⟩
    · exact .inr ⟨t, exceeds, error _ same⟩

/-- What is read behind something that was read and is closed again. -/
theorem IsLimited.behind {v : α} {rest : List Located} {events : List NestingEvent}
    {o : Except ReadError (α × List Located)} {o' second : Except ReadError (β × List Located)}
    {traced : Except ReadError (β × List Located) × List NestingEvent}
    (h : IsLimited room size o (.ok (v, rest), events))
    (h' : IsLimited room rest.length second traced) (ok : o = .ok (v, rest) → o' = second)
    (error : ∀ e, o = .error e → o' = .error e) :
    IsLimited room size o' (traced.1, events ++ traced.2) := by
  obtain ⟨shorter, level⟩ := h.settled v rest rfl
  refine ⟨?_, h'.flat, ?_, ?_⟩
  · intro w after read
    obtain ⟨shorter', level'⟩ := h'.settled w after read
    refine ⟨Nat.le_trans shorter' shorter, ?_⟩
    rw [level_append, level, level', Int.add_zero]
  · intro t member
    exact (List.mem_append.mp member).elim (h.openers t) (h'.openers t)
  · rcases h.same with ⟨fits, same⟩ | ⟨t, exceeds, same⟩
    · rw [ok same]
      rcases h'.same with ⟨fits', same'⟩ | ⟨t, exceeds, same'⟩
      · exact .inl ⟨fits.behind level fits', same'⟩
      · exact .inr ⟨t, exceeds.behind fits level, same'⟩
    -- What happens without the limit behind the token that exceeds it does not matter.
    · exact .inr ⟨t, exceeds.append _, error _ same⟩

/-- On these tokens, with so many levels left, a reader does what the reader without a limit does,
up to the token by which that one exceeds it. -/
def FollowsAt (ending : Ending) (room : Nat) (ts : List Located) (reader : Reader α)
    (tracer : Tracer α) : Prop :=
  IsLimited room ts.length ((reader.run ending).run ts) (tracer ending ts)

/-- The same on all streams with no more than so many tokens. -/
def Follows (ending : Ending) (size room : Nat) (reader : Reader α) (tracer : Tracer α) : Prop :=
  ∀ ts, ts.length ≤ size → FollowsAt ending room ts reader tracer

theorem Follows.mono {smaller : Nat} {reader : Reader α} {tracer : Tracer α}
    (h : Follows ending size room reader tracer) (le : smaller ≤ size) :
    Follows ending smaller room reader tracer :=
  fun ts short => h ts (Nat.le_trans short le)

theorem run_bind (tracer : Tracer α) (g : α → Tracer β) (ending : Ending) (ts : List Located) :
    (tracer >>= g) ending ts =
      match tracer ending ts with
      | (.ok (v, rest), events) => ((g v ending rest).1, events ++ (g v ending rest).2)
      | (.error e, events) => (.error e, events) := rfl

theorem run_pure (v : α) (ending : Ending) (ts : List Located) :
    (pure v : Tracer α) ending ts = (.ok (v, ts), []) := rfl

theorem run_enter (event : NestingEvent) (ending : Ending) (ts : List Located) :
    enter event ending ts = (.ok ((), ts), [event]) := rfl

/-- One step and what follows it. -/
theorem FollowsAt.bind {ts : List Located} {reader : Reader α} {tracer : Tracer α}
    {f : α → Reader β} {g : α → Tracer β} (h : FollowsAt ending room ts reader tracer)
    (later : ∀ v rest, (tracer ending ts).1 = .ok (v, rest) →
      FollowsAt ending room rest (f v) (g v)) :
    FollowsAt ending room ts (reader >>= f) (tracer >>= g) := by
  unfold FollowsAt at h later ⊢
  rw [Reader.run_bind, run_bind]
  generalize (reader.run ending).run ts = o, tracer ending ts = traced at h later
  obtain ⟨outcome, events⟩ := traced
  cases outcome with
  | error e =>
    apply h.failed
    rintro e rfl
    rfl
  | ok result =>
    obtain ⟨v, rest⟩ := result
    refine h.behind (later v rest rfl) ?_ ?_
    · rintro rfl
      rfl
    · rintro e rfl
      rfl

theorem Follows.bind {reader : Reader α} {tracer : Tracer α} {f : α → Reader β} {g : α → Tracer β}
    (h : Follows ending size room reader tracer)
    (later : ∀ v, Follows ending size room (f v) (g v)) :
    Follows ending size room (reader >>= f) (tracer >>= g) := by
  intro ts short
  have first := h ts short
  exact first.bind fun v rest read =>
    later v rest (Nat.le_trans (first.settled v rest read).1 short)

/-! ### Ways to put readers together -/

theorem follows_pure (v : α) : Follows ending size room (pure v) (pure v) := by
  intro ts _
  refine ⟨?_, (fun _ failed => nomatch failed), (fun _ member => nomatch member), .inl ⟨?_, rfl⟩⟩
  · intro w rest same
    cases same
    exact ⟨Nat.le_refl _, rfl⟩
  · exact staysWithin_nil_iff.mpr (Int.natCast_nonneg room)

private theorem not_isNesting_of_isSingle {expected : Expectation}
    (single : expected.isSingle = true) : expected.isNesting = false := by
  cases expected <;> first | rfl | cases single

/-- All failures but those of nesting. -/
private theorem allows_flat (s : TokenStream) : s.Allows fun e => e.isNesting = false where
  lexical _ := rfl
  unexpected _ single := not_isNesting_of_isSingle single
  literal _ _ := rfl
  violation _ := rfl

/-- A reader that opens nothing. -/
theorem follows_lift {reader : Reader α}
    (h : ∀ s : TokenStream, s.Allows (fun e => e.isNesting = false) →
      IsConfined s (fun e => e.isNesting = false) (fun _ => True) reader) :
    Follows ending size room reader (liftM reader) := by
  intro ts _
  have outcome := h ⟨ts, ending⟩ (allows_flat _) ts (List.suffix_refl ts)
  change IsLimited room ts.length _ ((reader.run ending).run ts, [])
  generalize (reader.run ending).run ts = o at outcome
  have fits : StaysWithin room [] := staysWithin_nil_iff.mpr (Int.natCast_nonneg room)
  refine ⟨?_, ?_, (fun _ member => nomatch member), .inl ⟨fits, rfl⟩⟩
  · rintro v rest ⟨⟩
    cases outcome with
    | ok _ left => exact ⟨left.length_le, rfl⟩
  · rintro e ⟨⟩
    cases outcome with
    | error flat => exact flat

/-- A failure that is not one of nesting. -/
theorem follows_throw {e : ReadError} (flat : e.isNesting = false) :
    Follows ending size room (throw e : Reader α) (liftM (throw e : Reader α)) :=
  follows_lift fun _ _ => confined_throw flat

theorem follows_unexpected (t : Located) (expected : Expectation)
    (flat : expected.isNesting = false) :
    Follows ending size room (unexpected t expected : Reader α)
      (liftM (unexpected t expected : Reader α)) :=
  follows_throw flat

theorem follows_accept (position : Position) (o : Except Violation α) :
    Follows ending size room (accept position o) (liftM (accept position o)) := by
  refine follows_lift fun s allows => ?_
  cases o with
  | ok v => exact confined_pure trivial
  | error broken => exact confined_throw rfl

/-- What is made of what was read opens nothing. -/
theorem Follows.finish {reader : Reader α} {tracer : Tracer α}
    (h : Follows ending size room reader tracer) (f : α → β) :
    Follows ending size room (reader >>= fun v => pure (f v)) (tracer >>= fun v => pure (f v)) :=
  h.bind fun v => follows_pure (f v)

theorem Follows.map {reader : Reader α} {tracer : Tracer α}
    (h : Follows ending size room reader tracer) (f : α → β) :
    Follows ending size room (f <$> reader) (f <$> tracer) := by
  rw [← bind_pure_comp]
  exact h.finish f

theorem Follows.discard {reader : Reader α} {tracer : Tracer α}
    (h : Follows ending size room reader tracer) :
    Follows ending size room (discard reader) (discard tracer) :=
  h.map _

theorem follows_peek : Follows ending size room peek (liftM peek) :=
  follows_lift fun _ allows => (confined_peek allows).any

theorem follows_next : Follows ending size room next (liftM next) :=
  follows_lift fun _ allows => (confined_next allows).any

theorem follows_eat (m : Mark) : Follows ending size room (eat m) (liftM (eat m)) :=
  follows_lift fun _ allows => confined_eat allows m

theorem follows_expect (m : Mark) : Follows ending size room (expect m) (liftM (expect m)) :=
  follows_lift fun _ allows => confined_expect allows m

theorem follows_expectKeyword (k : Keyword) :
    Follows ending size room (expectKeyword k) (liftM (expectKeyword k)) :=
  follows_lift fun _ allows => (confined_expectKeyword allows k).any

theorem follows_ident (expected : Expectation) (single : expected.isSingle = true) :
    Follows ending size room (ident expected) (liftM (ident expected)) :=
  follows_lift fun _ allows => confined_ident allows expected single

theorem follows_plainName (expected : Expectation) (single : expected.isSingle = true) :
    Follows ending size room (plainName expected) (liftM (plainName expected)) :=
  follows_lift fun _ allows => confined_plainName allows expected single

theorem follows_int (expected : Expectation) (single : expected.isSingle = true) :
    Follows ending size room (int expected) (liftM (int expected)) :=
  follows_lift fun _ allows => confined_int allows expected single

/-- What is read next depends on whether something was eaten. -/
theorem Follows.branch {eater : Reader Bool} {eater' : Tracer Bool} {yes no : Reader α}
    {yes' no' : Tracer α} (eaten : Follows ending size room eater eater')
    (left : Follows ending size room yes yes') (right : Follows ending size room no no') :
    Follows ending size room (eater >>= fun b => if b = true then yes else no)
      (eater' >>= fun b => if b = true then yes' else no') := by
  refine eaten.bind fun b => ?_
  cases b with
  | true => exact left
  | false => exact right

theorem run_within (t : Located) (inner : Tracer α) (ending : Ending) (ts : List Located) :
    within t inner ending ts =
      match inner ending ts with
      | (.ok result, events) => (.ok result, .opened t :: (events ++ [.closed]))
      | (.error e, events) => (.error e, .opened t :: events) := by
  unfold within
  simp only [run_bind, run_enter, run_pure]
  generalize inner ending ts = traced
  obtain ⟨outcome, events⟩ := traced
  cases outcome <;> rfl

/-- What is opened and closed again leaves the level as it was. -/
theorem level_within {t : Located} {events : List NestingEvent} (settled : level events = 0) :
    level (.opened t :: (events ++ [.closed])) = 0 := by
  simp [settled, change]

private theorem isOpener_of_mem {t start : Located} {events : List NestingEvent}
    (opens : start.token.IsOpener) (h : ∀ t, .opened t ∈ events → t.token.IsOpener)
    (member : .opened t ∈ .opened start :: (events ++ [.closed])) : t.token.IsOpener := by
  simp only [List.mem_cons, List.mem_append, List.not_mem_nil, or_false, reduceCtorEq] at member
  rcases member with ⟨⟨⟩⟩ | inside
  · exact opens
  · exact h t inside

/-- What is opened where there is another level. -/
theorem Follows.within {reader : Reader α} {tracer : Tracer α} {t : Located}
    (opens : t.token.IsOpener) (h : Follows ending size room reader tracer) :
    Follows ending size (room + 1) reader (within t tracer) := by
  intro ts short
  have inner := h ts short
  unfold FollowsAt at inner ⊢
  rw [run_within]
  generalize (reader.run ending).run ts = o, tracer ending ts = traced at inner
  obtain ⟨outcome, events⟩ := traced
  cases outcome with
  | error e =>
    -- What failed is not closed, so the event of its opening is all that is added.
    refine ⟨(fun _ _ read => nomatch read), inner.flat, ?_, ?_⟩
    · intro u member
      rcases List.mem_cons.mp member with ⟨⟨⟩⟩ | inside
      · exact opens
      · exact inner.openers u inside
    · rcases inner.same with ⟨fits, same⟩ | ⟨u, exceeds, same⟩
      · exact .inl ⟨fits.nest, same⟩
      · exact .inr ⟨u, exceeds.nest, same⟩
  | ok result =>
    obtain ⟨shorter, level⟩ := inner.settled result.1 result.2 rfl
    refine ⟨?_, (fun _ failed => nomatch failed), fun u => isOpener_of_mem opens inner.openers, ?_⟩
    · rintro _ _ ⟨⟩
      exact ⟨shorter, level_within level⟩
    · rcases inner.same with ⟨fits, same⟩ | ⟨u, exceeds, same⟩
      · refine .inl ⟨(fits.behind level ?_).nest, same⟩
        -- Closing it does not need another level.
        have empty := fits [] List.nil_prefix
        exact staysWithin_cons_iff.mpr ⟨empty, staysWithin_nil_iff.mpr (Int.le_add_one empty)⟩
      · exact .inr ⟨u, (exceeds.append _).nest, same⟩

/-- What is opened where there is no further level. -/
theorem Follows.tooDeep {reader : Reader α} {tracer : Tracer α} {t : Located}
    (opens : t.token.IsOpener) (h : Follows ending size room reader tracer) :
    Follows ending size 0 (Reading.tooDeep t) (Tracer.within t tracer) := by
  intro ts short
  -- The reader without the limit goes on as it does where there is another level.
  have inner := h.within opens ts short
  refine ⟨inner.settled, inner.flat, inner.openers, .inr ⟨t, ?_, rfl⟩⟩
  rw [run_within]
  split <;> exact exceeds_zero t _

section Many

variable {item : Reader (Option α)} {item' : Tracer (Option α)}

/-- Items behind a first one. -/
private def readMore (item : Reader (Option α)) (v : α) : Reader (List α) := do
  return v :: (← Reader.many item)

/-- The same without a limit. -/
private def traceMore (item : Tracer (Option α)) (v : α) : Tracer (List α) := do
  return v :: (← Tracer.many item)

/-- What `many` does behind its first item, if there was one: it goes on if tokens were taken. -/
private def readOn (item : Reader (Option α)) (before : Nat) : Option α → Reader (List α)
  | none => pure []
  | some v => fun ending rest =>
    if rest.length < before then readMore item v ending rest else .ok ([v], rest)

/-- The same without a limit. -/
private def traceOn (item : Tracer (Option α)) (before : Nat) : Option α → Tracer (List α)
  | none => pure []
  | some v => fun ending rest =>
    if rest.length < before then traceMore item v ending rest else (.ok ([v], rest), [])

private theorem run_many (item : Reader (Option α)) (ending : Ending) (ts : List Located) :
    Reader.many item ending ts = ((item >>= readOn item ts.length).run ending).run ts := by
  rw [Reader.many.eq_def, Reader.run_bind]
  rcases (item.run ending).run ts with e | ⟨v, rest⟩
  · rfl
  · cases v with
    | none => rfl
    | some v =>
      simp only [readOn, ReaderT.run, StateT.run]
      split
      · have more := Reader.run_bind (Reader.many item) (fun vs => pure (v :: vs)) ending rest
        change readMore item v ending rest = _ at more
        simp only [ReaderT.run, StateT.run] at more
        rw [more]
        cases Reader.many item ending rest <;> rfl
      · rfl

private theorem trace_many (item : Tracer (Option α)) (ending : Ending) (ts : List Located) :
    Tracer.many item ending ts = (item >>= traceOn item ts.length) ending ts := by
  rw [Tracer.many.eq_def, run_bind]
  rcases item ending ts with ⟨e | ⟨v, rest⟩, events⟩
  · rfl
  · cases v with
    | none => simp [traceOn, run_pure]
    | some v =>
      simp only [traceOn]
      split
      · have more := run_bind (Tracer.many item) (fun vs => pure (v :: vs)) ending rest
        change traceMore item v ending rest = _ at more
        rw [more]
        rcases Tracer.many item ending rest with ⟨e | ⟨vs, after⟩, more⟩
        · rfl
        · simp [run_pure]
      · simp

theorem Follows.many (h : Follows ending size room item item') :
    Follows ending size room (Reader.many item) (Tracer.many item') := by
  intro ts short
  have first := h ts short
  -- One round of each loop is a step and what follows it, so the rule for these applies.
  suffices whole : FollowsAt ending room ts (item >>= readOn item ts.length)
      (item' >>= traceOn item' ts.length) by
    unfold FollowsAt at whole ⊢
    rw [← run_many, ← trace_many] at whole
    exact whole
  refine first.bind fun v rest read => ?_
  have shorter := (first.settled v rest read).1
  cases v with
  | none => exact follows_pure [] rest (Nat.le_refl _)
  | some v =>
    by_cases progress : rest.length < ts.length
    · have more : FollowsAt ending room rest (readMore item v) (traceMore item' v) :=
        (Follows.many h rest (Nat.le_trans shorter short)).bind fun vs after _ =>
          follows_pure (v :: vs) after (Nat.le_refl _)
      unfold FollowsAt at more ⊢
      simp only [readOn, traceOn, ReaderT.run, StateT.run, if_pos progress] at more ⊢
      exact more
    · have last : FollowsAt ending room rest (pure [v]) (pure [v]) :=
        follows_pure [v] rest (Nat.le_refl _)
      unfold FollowsAt at last ⊢
      simp only [readOn, traceOn, ReaderT.run, StateT.run, if_neg progress]
      exact last
termination_by ts => ts.length

end Many

theorem Follows.commaSeparated {item : Reader α} {item' : Tracer α}
    (h : Follows ending size room item item') :
    Follows ending size room (Reader.commaSeparated item) (Tracer.commaSeparated item') := by
  refine h.bind fun first => Follows.bind (Follows.many ?_) fun rest => follows_pure _
  exact (follows_eat .comma).branch (h.finish some) (follows_pure none)

end Tracer

namespace Reading

open Tracer

variable {ending : Ending} {size room : Nat}

/-! ### Options -/

section Values

variable {item : Reader Value} {item' : Tracer Value} (h : Follows ending size room item item')

include h

theorem follows_listItems :
    Follows ending size room (listItems item) (Unlimited.listItems item') := by
  apply (follows_eat _).branch (follows_pure _)
  exact h.commaSeparated.bind fun items => (follows_expect _).finish _

theorem follows_mapValue :
    Follows ending size room (mapValue item) (Unlimited.mapValue item') := by
  refine (follows_eat _).branch h (follows_peek.bind fun t => ?_)
  split
  · exact h
  · exact follows_unexpected t _ rfl

theorem follows_mapEntries (close : Mark) :
    Follows ending size room (mapEntries item close) (Unlimited.mapEntries item' close) := by
  refine Follows.many ((follows_eat _).branch (follows_pure none) ?_)
  refine (follows_lift fun _ allows => confined_mapKey allows).bind fun name =>
    (follows_mapValue h).bind fun v => ?_
  apply (follows_eat _).branch (follows_pure _)
  exact (follows_eat _).discard.finish _

theorem follows_bracketed (bracket : Bracket) :
    Follows ending size room (bracketed item bracket) (Unlimited.bracketed item' bracket) := by
  cases bracket with
  | list => exact (follows_listItems h).map Value.list
  | braces => exact (follows_mapEntries h _).map Value.map
  | angles => exact (follows_mapEntries h _).map Value.map

end Values

/-- The bracket of a value is taken in front of what stands in it, so less is left for that. -/
theorem follows_valueWith (proper : ending.IsProper) {composite : Located → Bracket → Reader Value}
    {composite' : Located → Bracket → Tracer Value}
    (h : ∀ smaller < size, ∀ t bracket, t.token.IsOpener →
      Follows ending smaller room (composite t bracket) (composite' t bracket)) :
    Follows ending size room (valueWith composite) (Unlimited.valueWith composite') := by
  refine follows_peek.bind fun t => ?_
  cases t.token with
  | str bytes =>
    exact (follows_lift fun _ allows => confined_literal allows .optionValue rfl).bind fun bytes =>
      follows_pure _
  | int | float | ident | mark | eof =>
    intro ts short
    refine (follows_next ts short).bind fun t rest read => ?_
    -- Only the end of the text is read without a token being taken.
    have shorter (more : t.token ≠ .eof) : rest.length < size := by
      have taken := (reads_next_cons_iff proper more).mp read
      subst taken
      exact short
    cases found : t.token with
    | int n => exact follows_pure _ rest (Nat.le_refl _)
    | float x => exact follows_pure _ rest (Nat.le_refl _)
    | ident name => exact follows_pure _ rest (Nat.le_refl _)
    | str bytes => exact follows_unexpected t .optionValue rfl rest (Nat.le_refl _)
    | eof => exact follows_unexpected t .optionValue rfl rest (Nat.le_refl _)
    | mark m =>
      cases opens : Bracket.ofMark? m with
      | none =>
        simp only [opens]
        exact follows_unexpected t .optionValue rfl rest (Nat.le_refl _)
      | some bracket =>
        simp only [opens]
        refine h rest.length (shorter ?_) t bracket (.inr ⟨m, bracket, found, opens⟩) rest
          (Nat.le_refl _)
        rw [found]
        nofun

/-- The keyword of a message is taken in front of what follows it, so less is left for that. -/
theorem follows_keyword (proper : ending.IsProper) {α : Type} {k : Keyword}
    {f : Located → Reader α} {g : Located → Tracer α}
    (h : ∀ smaller < size, ∀ t, t.token = k.token → Follows ending smaller room (f t) (g t)) :
    Follows ending size room (expectKeyword k >>= f) (liftM (expectKeyword k) >>= g) := by
  intro ts short
  refine (follows_expectKeyword k ts short).bind fun t rest read => ?_
  obtain ⟨rfl, found⟩ := (reads_expectKeyword_iff proper).mp read
  exact h rest.length short t found rest (Nat.le_refl _)

section Items

variable {α : Type} {empty : α} {token : Token} {other : Reader (Option α)}
  {other' : Tracer (Option α)}

/-- A statement in braces: there is none in front of the closing one, and an empty one is a
semicolon. -/
theorem follows_item (h : Follows ending size room other other') :
    Follows ending size room
      (match token with
        | .mark .closeBrace => pure none
        | .mark .semicolon => do
          discard next
          return some empty
        | _ => other)
      (match token with
        | .mark .closeBrace => pure none
        | .mark .semicolon => do
          discard next
          return some empty
        | _ => other') := by
  split
  · exact follows_pure none
  · exact follows_next.discard.finish _
  · exact h

/-- A statement in braces of a declaration where all but empty ones begin with an identifier. -/
theorem follows_namedItem {named : String → Reader (Option α)}
    {named' : String → Tracer (Option α)}
    (h : ∀ name, Follows ending size room (named name) (named' name))
    (h' : Follows ending size room other other') :
    Follows ending size room
      (match token with
        | .mark .closeBrace => pure none
        | .mark .semicolon => do
          discard next
          return some empty
        | .ident name => named name
        | _ => other)
      (match token with
        | .mark .closeBrace => pure none
        | .mark .semicolon => do
          discard next
          return some empty
        | .ident name => named' name
        | _ => other') := by
  split
  · exact follows_pure none
  · exact follows_next.discard.finish _
  · exact h _
  · exact h'

end Items

section Limited

variable (proper : ending.IsProper)

include proper

theorem follows_value (fuel room : Nat) :
    Follows ending fuel room (value room) (Unlimited.value fuel) := by
  induction fuel generalizing room with
  | zero =>
    -- Without tokens nothing is opened.
    cases room <;> exact follows_valueWith proper fun _ less => nomatch less
  | succ fuel ih =>
    cases room with
    | zero =>
      refine follows_valueWith proper fun smaller less t bracket opens => ?_
      have inner := (follows_bracketed (ih 0) bracket).mono (Nat.le_of_lt_succ less)
      exact inner.tooDeep opens
    | succ room =>
      refine follows_valueWith proper fun smaller less t bracket opens => ?_
      have inner := (follows_bracketed (ih room) bracket).mono (Nat.le_of_lt_succ less)
      exact inner.within opens

theorem follows_setting (fuel room : Nat) :
    Follows ending fuel room (setting room) (Unlimited.setting fuel) :=
  (follows_lift fun _ allows => confined_optionName allows).bind fun _ =>
    (follows_expect _).bind fun _ => (follows_value proper fuel room).finish _

theorem follows_optionStatement (fuel room : Nat) :
    Follows ending fuel room (optionStatement room) (Unlimited.optionStatement fuel) :=
  (follows_setting proper fuel room).bind fun _ => (follows_expect _).finish _

/-- An option statement as a statement of some kind. -/
theorem follows_optionWord {α : Type} (fuel room : Nat) (of : Setting → α) :
    Follows ending fuel room
      (do
        discard next
        return some (of (← optionStatement room)))
      (do
        discard next
        return some (of (← Unlimited.optionStatement fuel))) :=
  follows_next.discard.bind fun _ => (follows_optionStatement proper fuel room).finish _

theorem follows_bracketOptions (fuel room : Nat) :
    Follows ending fuel room (bracketOptions room) (Unlimited.bracketOptions fuel) := by
  refine (follows_eat _).branch ?_ (follows_pure _)
  exact (follows_setting proper fuel room).commaSeparated.bind fun _ =>
    (follows_expect _).finish _

/-! ### Fields, enums and services -/

theorem follows_fieldRest (fuel room : Nat) (start : Located) (label : Label) (typeName : String) :
    Follows ending fuel room (fieldRest room start label typeName)
      (Unlimited.fieldRest fuel start label typeName) :=
  (follows_plainName _ rfl).bind fun _ => (follows_expect _).bind fun _ =>
    (follows_int _ rfl).bind fun _ => (follows_bracketOptions proper fuel room).bind fun _ =>
      (follows_expect _).bind fun _ => follows_accept _ _

theorem follows_labelledField (fuel room : Nat) (label : Label) :
    Follows ending fuel room (labelledField room label) (Unlimited.labelledField fuel label) :=
  follows_next.bind fun _ => (follows_ident _ rfl).bind fun _ =>
    follows_fieldRest proper fuel room _ _ _

theorem follows_mapField (fuel room : Nat) :
    Follows ending fuel room (mapField room) (Unlimited.mapField fuel) :=
  follows_next.bind fun _ => (follows_expect _).bind fun _ => (follows_ident _ rfl).bind fun _ =>
    (follows_expect _).bind fun _ => (follows_ident _ rfl).bind fun _ =>
      (follows_expect _).bind fun _ => follows_fieldRest proper fuel room _ _ _

theorem follows_extendStatement (fuel room : Nat) :
    Follows ending fuel room (extendStatement room) (Unlimited.extendStatement fuel) := by
  refine follows_peek.bind fun t => follows_item ?_
  cases t.token.keyword?.bind labelOfKeyword? with
  | some label => exact (follows_labelledField proper fuel room label).finish _
  | none => exact follows_unexpected t .extendStatement rfl

theorem follows_extendBlock (fuel room : Nat) :
    Follows ending fuel room (extendBlock room) (Unlimited.extendBlock fuel) :=
  (follows_expectKeyword _).bind fun _ => (follows_ident _ rfl).bind fun _ =>
    (follows_expect _).bind fun _ => (follows_extendStatement proper fuel room).many.bind fun _ =>
      (follows_expect _).bind fun _ => follows_accept _ _

theorem follows_enumValue (fuel room : Nat) :
    Follows ending fuel room (enumValue room) (Unlimited.enumValue fuel) :=
  follows_peek.bind fun _ => (follows_plainName _ rfl).bind fun _ => (follows_expect _).bind
    fun _ => (follows_int _ rfl).bind fun _ => (follows_bracketOptions proper fuel room).bind
      fun _ => (follows_expect _).bind fun _ => follows_accept _ _

theorem follows_enumStatement (fuel room : Nat) :
    Follows ending fuel room (enumStatement room) (Unlimited.enumStatement fuel) := by
  refine follows_peek.bind fun t => follows_namedItem (fun name => ?_)
    (follows_unexpected t .enumStatement rfl)
  split
  · exact follows_optionWord proper fuel room _
  · exact (follows_enumValue proper fuel room).finish _

theorem follows_enumType (fuel room : Nat) (scope : Scope) :
    Follows ending fuel room (enumType room scope) (Unlimited.enumType fuel scope) :=
  (follows_expectKeyword _).bind fun _ => (follows_plainName _ rfl).bind fun _ =>
    (follows_expect _).bind fun _ => (follows_enumStatement proper fuel room).many.bind fun _ =>
      (follows_expect _).bind fun _ => follows_accept _ _

theorem follows_rpcStatement (fuel room : Nat) :
    Follows ending fuel room (rpcStatement room) (Unlimited.rpcStatement fuel) := by
  refine follows_peek.bind fun t => follows_item ?_
  split
  · exact follows_optionWord proper fuel room _
  · exact follows_unexpected t .rpcStatement rfl

theorem follows_rpcOptions (fuel room : Nat) :
    Follows ending fuel room (rpcOptions room) (Unlimited.rpcOptions fuel) := by
  refine (follows_eat _).branch ?_ ((follows_expect _).finish _)
  exact (follows_rpcStatement proper fuel room).many.bind fun _ => (follows_expect _).bind fun _ =>
    (follows_eat _).discard.finish _

theorem follows_rpc (fuel room : Nat) :
    Follows ending fuel room (rpc room) (Unlimited.rpc fuel) :=
  (follows_expectKeyword _).bind fun _ => (follows_plainName _ rfl).bind fun _ =>
    (follows_expect _).bind fun _ => (follows_ident _ rfl).bind fun _ =>
      (follows_expect _).bind fun _ => (follows_expectKeyword _).discard.bind fun _ =>
        (follows_expect _).bind fun _ => (follows_ident _ rfl).bind fun _ =>
          (follows_expect _).bind fun _ => (follows_rpcOptions proper fuel room).bind fun _ =>
            follows_accept _ _

theorem follows_serviceStatement (fuel room : Nat) :
    Follows ending fuel room (serviceStatement room) (Unlimited.serviceStatement fuel) := by
  refine follows_peek.bind fun t => follows_item ?_
  cases t.token.keyword? with
  | none => exact follows_unexpected t .serviceStatement rfl
  | some k =>
    cases k with
    | optionWord => exact follows_optionWord proper fuel room _
    | rpcWord => exact (follows_rpc proper fuel room).finish _
    | _ => exact follows_unexpected t .serviceStatement rfl

theorem follows_service (fuel room : Nat) (scope : Scope) :
    Follows ending fuel room (service room scope) (Unlimited.service fuel scope) :=
  (follows_expectKeyword _).bind fun _ => (follows_plainName _ rfl).bind fun _ =>
    (follows_expect _).bind fun _ => (follows_serviceStatement proper fuel room).many.bind fun _ =>
      (follows_expect _).bind fun _ => follows_accept _ _

/-! ### Messages -/

theorem follows_messageStatement {reader : Reader Message} {tracer : Tracer Message}
    {fuel room : Nat} (h : Follows ending fuel room reader tracer) (scope : Scope) :
    Follows ending fuel room (messageStatement reader room scope)
      (Unlimited.messageStatement tracer fuel scope) := by
  refine follows_peek.bind fun t => follows_namedItem (fun name => ?_)
    (follows_unexpected t .messageStatement rfl)
  split
  · exact (follows_mapField proper fuel room).finish _
  cases Keyword.ofSpelling? name with
  | none => exact follows_unexpected t .messageStatement rfl
  | some k =>
    cases k with
    | messageWord => exact h.finish _
    | enumWord => exact (follows_enumType proper fuel room scope).finish _
    | extendWord => exact (follows_extendBlock proper fuel room).finish _
    | extensionsWord => exact (follows_lift fun _ allows => confined_extensions allows).finish _
    | optionWord => exact follows_optionWord proper fuel room _
    | requiredWord | optionalWord | repeatedWord =>
      exact (follows_labelledField proper fuel room _).finish _
    | _ => exact follows_unexpected t .messageStatement rfl

/-- What follows the keyword of a message, up to the closing brace. -/
private def messageBody (message : Scope → Reader Message) (budget : Nat) (scope : Scope) :
    Reader (String × List MessageStatement) := do
  let name ← plainName .messageName
  expect .openBrace
  let inner := scope ++ [name]
  let statements ← many (messageStatement (message inner) budget inner)
  expect .closeBrace
  return (name, statements)

omit proper in
private theorem message_succ (budget : Nat) (scope : Scope) :
    message (budget + 1) scope =
      expectKeyword .messageWord >>= fun start =>
        messageBody (message budget) budget scope >>= fun body =>
          accept start.position (Message.make body.1 (scope.qualify body.1) (docOf start)
            (bodyOfStatements body.2)) := by
  simp [message, messageBody]

private theorem follows_messageBody {reader : Scope → Reader Message}
    {tracer : Scope → Tracer Message} {fuel room : Nat}
    (h : ∀ scope, Follows ending fuel room (reader scope) (tracer scope)) (scope : Scope) :
    Follows ending fuel room (messageBody reader room scope)
      (Unlimited.messageBody tracer fuel scope) :=
  (follows_plainName _ rfl).bind fun _ => (follows_expect _).bind fun _ =>
    (follows_messageStatement proper (h _) _).many.bind fun _ => (follows_expect _).finish _

theorem follows_message (fuel room : Nat) (scope : Scope) :
    Follows ending fuel room (message room scope) (Unlimited.message fuel scope) := by
  induction fuel generalizing room scope with
  | zero =>
    -- Without tokens not even the keyword is there.
    cases room <;> exact follows_keyword proper fun _ less => nomatch less
  | succ fuel ih =>
    cases room with
    | zero =>
      refine follows_keyword proper fun smaller less start found => ?_
      have inner := (follows_messageBody proper (ih 0) scope).mono (Nat.le_of_lt_succ less)
      exact (inner.tooDeep (.inl found)).bind fun body => follows_accept start.position
        (Message.make body.1 (scope.qualify body.1) (docOf start) (bodyOfStatements body.2))
    | succ room =>
      rw [message_succ]
      refine follows_keyword proper fun smaller less start found => ?_
      have inner := (follows_messageBody proper (ih room) scope).mono (Nat.le_of_lt_succ less)
      exact (inner.within (.inl found)).bind fun body => follows_accept _ _

/-! ### Files -/

theorem follows_fileStatement (fuel room : Nat) (scope : Scope) :
    Follows ending fuel room (fileStatement room scope) (Unlimited.fileStatement fuel scope) := by
  refine follows_peek.bind fun t => ?_
  split
  · exact follows_pure _
  split
  · exact follows_next.discard.finish _
  cases t.token.keyword? with
  | none => exact follows_unexpected t .fileStatement rfl
  | some k =>
    cases k with
    | packageWord => exact follows_pure _
    | importWord =>
      exact (follows_lift fun _ allows => (confined_importStatement allows).any).finish _
    | optionWord => exact follows_optionWord proper fuel room _
    | messageWord => exact (follows_message proper fuel room scope).finish _
    | enumWord => exact (follows_enumType proper fuel room scope).finish _
    | extendWord => exact (follows_extendBlock proper fuel room).finish _
    | serviceWord => exact (follows_service proper fuel room scope).finish _
    | _ => exact follows_unexpected t .fileStatement rfl

omit proper in
private theorem follows_packageStatement? {size room : Nat} :
    Follows ending size room packageStatement? (liftM packageStatement?) :=
  follows_lift fun _ allows => (confined_packageStatement? allows).any

theorem follows_statementsOf (fuel room : Nat) (package : String) :
    Follows ending fuel room (statementsOf room package) (Unlimited.statementsOf fuel package) := by
  refine (follows_fileStatement proper fuel room _).many.bind fun _ =>
    follows_packageStatement?.bind fun again => ?_
  cases again with
  | none => exact follows_pure _
  | some _ => exact follows_accept _ _

theorem follows_fileText (fuel room : Nat) :
    Follows ending fuel room (fileText room) (Unlimited.fileText fuel) := by
  refine (follows_lift fun _ allows => confined_versionStatement? allows).bind fun _ =>
    (follows_fileStatement proper fuel room _).many.bind fun _ =>
      follows_packageStatement?.bind fun package => ?_
  cases package with
  | none => exact follows_pure _
  | some _ => exact (follows_statementsOf proper fuel room _).finish _

theorem follows_file (fuel room : Nat) (name : String) :
    Follows ending fuel room (file room name) (Unlimited.file fuel name) := by
  refine (follows_fileText proper fuel room).bind fun text => ?_
  cases SchemaFile.make name text.body with
  | ok f => exact follows_pure f
  | error broken => exact follows_accept _ _

end Limited

end Reading

/-! ### Texts -/

namespace NestingEvent

/-- No more are open than events were recorded. -/
theorem level_le_length (events : List NestingEvent) : level events ≤ events.length := by
  induction events with
  | nil => exact Int.le_refl 0
  | cons event events ih =>
    rw [level_cons, List.length_cons]
    cases event <;> simp only [change] <;> omega

theorem staysWithin_of_length_le {events : List NestingEvent} {room : Nat}
    (h : events.length ≤ room) : StaysWithin room events := by
  intro front leading
  have shorter := leading.length_le
  have bounded := level_le_length front
  omega

/-- A record does not stay within what a token exceeds. -/
theorem Exceeds.not_staysWithin {room : Int} {events : List NestingEvent} {t : Located}
    (h : Exceeds room events t) : ¬ StaysWithin room events := by
  obtain ⟨before, after, rfl, _, level⟩ := h
  intro fits
  have more := fits (before ++ [opened t]) ⟨after, by simp⟩
  rw [level_append, level, level_cons, level_nil, change] at more
  omega

end NestingEvent

section Texts

variable (config : DocConfig) (name : String) (text : List Char)

/-- With any limit, a text is read as it is without one, up to the token that exceeds the limit. -/
theorem isLimited_parseUnlimited (room : Nat) :
    (∀ t, .opened t ∈ (parseUnlimited config name text).2 → t.token.IsOpener) ∧
      (∀ e, (parseUnlimited config name text).1 = .error e → e.isNesting = false) ∧
      (∀ f, (parseUnlimited config name text).1 = .ok f →
        level (parseUnlimited config name text).2 = 0) ∧
      ((StaysWithin room (parseUnlimited config name text).2 ∧
          (Reading.file room name).ofStream (TokenStream.ofText config text) =
            (parseUnlimited config name text).1) ∨
        ∃ t, Exceeds room (parseUnlimited config name text).2 t ∧
          (Reading.file room name).ofStream (TokenStream.ofText config text) =
            .error (.tooDeep t)) := by
  have whole := Reading.follows_file (TokenStream.ofText_isProper config text)
    (TokenStream.ofText config text).tokens.length room name _ (Nat.le_refl _)
  unfold Tracer.FollowsAt at whole
  simp only [parseUnlimited, ofStream]
  generalize Reading.Unlimited.file _ _ _ _ = traced at whole ⊢
  obtain ⟨outcome, events⟩ := traced
  refine ⟨whole.openers, ?_, ?_, ?_⟩
  · intro e failed
    cases outcome with
    | error e' =>
      cases failed
      exact whole.flat e rfl
    | ok result => nomatch failed
  · intro f read
    cases outcome with
    | error e => nomatch read
    | ok result => exact (whole.settled result.1 result.2 rfl).2
  · rcases whole.same with ⟨fits, same⟩ | ⟨t, exceeds, same⟩
    · exact .inl ⟨fits, by rw [same]⟩
    · exact .inr ⟨t, exceeds, by rw [same]; rfl⟩

/-- The limit on nesting only rejects. Reading without a limit is reading with any limit that is
large enough. Where no more than a hundred messages and bracketed values are open at any moment, a
text is what it is without the limit. Otherwise it fails at the token that opens one more, which is
found there. -/
theorem parse_of_parseUnlimited :
    (∀ room, (parseUnlimited config name text).2.length ≤ room →
        (Reading.file room name).ofStream (TokenStream.ofText config text) =
          (parseUnlimited config name text).1) ∧
      (∀ t, .opened t ∈ (parseUnlimited config name text).2 → t.token.IsOpener) ∧
      (∀ e, (parseUnlimited config name text).1 = .error e → e.isNesting = false) ∧
      (∀ f, (parseUnlimited config name text).1 = .ok f →
        level (parseUnlimited config name text).2 = 0) ∧
      (StaysWithin 100 (parseUnlimited config name text).2 →
        parse config name text = (parseUnlimited config name text).1) ∧
      (¬ StaysWithin 100 (parseUnlimited config name text).2 →
        ∃ before t after,
          (parseUnlimited config name text).2 = before ++ .opened t :: after ∧
          StaysWithin 100 before ∧ level before = 100 ∧
          ∃ e, parse config name text = .error (.unexpected e) ∧
            e.expected.text = "at most 100 levels of nesting" ∧ e.position = t.position ∧
            e.found = t.token) := by
  obtain ⟨openers, flat, settled, same⟩ :=
    isLimited_parseUnlimited config name text Reading.nestingLimit
  refine ⟨fun room enough => ?_, openers, flat, settled, fun fits => ?_, fun exceeded => ?_⟩
  · -- As many levels as there are events cannot be exceeded.
    obtain ⟨_, _, _, ⟨_, same⟩ | ⟨t, exceeds, _⟩⟩ :=
      isLimited_parseUnlimited config name text room
    · exact same
    · exact absurd (staysWithin_of_length_le enough) exceeds.not_staysWithin
  · rcases same with ⟨_, same⟩ | ⟨t, exceeds, _⟩
    · exact same
    · exact absurd fits exceeds.not_staysWithin
  · rcases same with ⟨fits, _⟩ | ⟨t, ⟨before, after, whole, fits, full⟩, failed⟩
    · exact absurd fits exceeded
    · exact ⟨before, t, after, whole, fits, full, _, failed, rfl, rfl, rfl⟩

end Texts

/-- So many lists inside each other. -/
def nestedLists (count : Nat) : List Char :=
  "option o = ".toList ++ List.replicate count '[' ++ List.replicate count ']' ++ [';']

/-- Lists in a message beside each other, and a hundred and one of them inside each other. -/
theorem nestedLists_parse :
    parse {} "lists.proto" "message A { option o = [[1], [2]]; }".toList =
        (parseUnlimited {} "lists.proto" "message A { option o = [[1], [2]]; }".toList).1 ∧
      ∃ e, parse {} "lists.proto" (nestedLists 101) = .error (.unexpected e) ∧
        e.expected.text = "at most 100 levels of nesting" := by
  constructor
  · obtain ⟨_, _, _, _, below, _⟩ := parse_of_parseUnlimited {} "lists.proto"
      "message A { option o = [[1], [2]]; }".toList
    exact below (by decide +kernel)
  · obtain ⟨_, _, _, _, _, above⟩ := parse_of_parseUnlimited {} "lists.proto" (nestedLists 101)
    obtain ⟨_, _, _, _, _, _, e, failed, expected, _⟩ := above (by decide +kernel)
    exact ⟨e, failed, expected⟩

end ProtoSchema
