import ProtoSchema.Proofs.Reading.Cursor
import ProtoSchema.Proofs.Reading.Nesting

/-!
# Runs over a cursor

A parser takes its tokens from a cursor, one at a time, and the cursor counts what is open: a
message or a bracketed value is counted behind the token that opens it, until its inside has been
read. `Runs` says what such a parser does, with rules for each way to put readers together. The
readers themselves are handed a whole stream and the number of levels that are left, which is the
same: a run comes to what the reader makes of the stream of the cursor (`Runs.runOn_eq`), and a run
that succeeds leaves the count as it was (`Runs.settled`).
-/

namespace ProtoSchema

open Reader Reading

variable {α β : Type}

/-! ### Cursors that count -/

/-- A cursor, and how many messages and bracketed values are open. -/
structure CountingCursor extends Cursor where
  depth : Nat
  fits : depth ≤ nestingLimit

namespace CountingCursor

/-- A cursor on a text of which nothing has been read. -/
def ofText (config : DocConfig) (text : List Char) : CountingCursor :=
  ⟨Cursor.ofText config text, 0, Nat.zero_le _⟩

/-- A look at the next token opens and closes nothing. -/
def ask (look : Look) (c : CountingCursor) : Except ReadError (Located × CountingCursor) :=
  (Cursor.ask look c.toCursor).map fun (t, after) => (t, ⟨after, c.depth, c.fits⟩)

/-- Counts what a token opens, unless as much as may be is open already. -/
def descend (t : Located) (c : CountingCursor) : Except ReadError CountingCursor :=
  if more : c.depth < nestingLimit then .ok ⟨c.toCursor, c.depth + 1, more⟩
  else .error (.tooDeep t)

/-- Counts that something is closed. -/
def ascend (c : CountingCursor) : CountingCursor :=
  ⟨c.toCursor, c.depth - 1, Nat.le_trans (Nat.sub_le _ _) c.fits⟩

/-- How much may still be opened. -/
def room (c : CountingCursor) : Nat := nestingLimit - c.depth

/-- How many tokens the cursor has still to show. -/
def left (c : CountingCursor) : Nat := c.stream.tokens.length

end CountingCursor

/-! ### Runs -/

namespace Reading

/-- What a token opens: too much if no level is left, and inside it there is one less. -/
def nested (t : Located) (inside : Nat → Reader α) : Nat → Reader α
  | 0 => tooDeep t
  | budget + 1 => inside budget

end Reading

/-- Over a cursor a reader runs to an outcome: a value and the cursor as it is then, or a failure.
A reader is a family here, for all numbers of levels that may be left. A run does not choose one of
them; what is opened shows in the family as `nested`, and it is counted. -/
inductive Runs : {α : Type} → (Nat → Reader α) → CountingCursor →
    Except ReadError (α × CountingCursor) → Prop
  | pure {α : Type} (v : α) (c : CountingCursor) : Runs (fun _ => pure v) c (.ok (v, c))
  | throw {α : Type} (e : ReadError) (c : CountingCursor) :
      Runs (fun _ => (throw e : Reader α)) c (.error e)
  -- The end mark may be looked at, but if it is taken the reader fails without another look.
  | shown {look : Look} {c after : CountingCursor} {t : Located}
      (asked : c.ask look = .ok (t, after)) (more : look = .next → t.token ≠ .eof) :
      Runs (fun _ => look.reader) c (.ok (t, after))
  | fault {look : Look} {c : CountingCursor} {e : ReadError} (asked : c.ask look = .error e) :
      Runs (fun _ => look.reader) c (.error e)
  | atEnd {α : Type} {f : Located → Nat → Reader α} {c after : CountingCursor} {t : Located}
      {e : ReadError} (asked : c.ask .next = .ok (t, after)) (last : t.token = .eof)
      (refuses : ∀ budget, f t budget = throw e) :
      Runs (fun budget => next >>= fun t => f t budget) c (.error e)
  | bind {α β : Type} {reader : Nat → Reader α} {f : α → Nat → Reader β}
      {c mid : CountingCursor} {v : α} {o : Except ReadError (β × CountingCursor)}
      (first : Runs reader c (.ok (v, mid))) (second : Runs (f v) mid o) :
      Runs (fun budget => reader budget >>= fun v => f v budget) c o
  | failed {α β : Type} {reader : Nat → Reader α} {f : α → Nat → Reader β} {c : CountingCursor}
      {e : ReadError} (first : Runs reader c (.error e)) :
      Runs (fun budget => reader budget >>= fun v => f v budget) c (.error e)
  -- A loop goes on as long as its rounds take tokens and find an item.
  | manyNone {α : Type} {item : Nat → Reader (Option α)} {c after : CountingCursor}
      (round : Runs item c (.ok (none, after))) :
      Runs (fun budget => many (item budget)) c (.ok ([], after))
  | manyFailed {α : Type} {item : Nat → Reader (Option α)} {c : CountingCursor} {e : ReadError}
      (round : Runs item c (.error e)) : Runs (fun budget => many (item budget)) c (.error e)
  | manySome {α : Type} {item : Nat → Reader (Option α)} {c mid : CountingCursor} {v : α}
      {o : Except ReadError (List α × CountingCursor)} (round : Runs item c (.ok (some v, mid)))
      (progress : mid.left < c.left) (later : Runs (fun budget => many (item budget)) mid o) :
      Runs (fun budget => many (item budget)) c (o.map fun (vs, after) => (v :: vs, after))
  -- The count goes up in front of what is opened and down behind it.
  | nested {α : Type} {t : Located} {inside : Nat → Reader α} {c down after : CountingCursor}
      {v : α} (opened : c.descend t = .ok down) (inner : Runs inside down (.ok (v, after))) :
      Runs (nested t inside) c (.ok (v, after.ascend))
  | nestedFailed {α : Type} {t : Located} {inside : Nat → Reader α} {c down : CountingCursor}
      {e : ReadError} (opened : c.descend t = .ok down) (inner : Runs inside down (.error e)) :
      Runs (nested t inside) c (.error e)
  | tooDeep {α : Type} {t : Located} {inside : Nat → Reader α} {c : CountingCursor} {e : ReadError}
      (refused : c.descend t = .error e) : Runs (nested t inside) c (.error e)

/-! ### Readers on streams -/

namespace Reader

/-- What a reader makes of a stream, and what is left of the stream. -/
def runOn (reader : Reader α) (s : TokenStream) : Except ReadError (α × TokenStream) :=
  ((reader.run s.ending).run s.tokens).map fun (v, rest) => (v, ⟨rest, s.ending⟩)

theorem ofStream_eq (reader : Reader α) (s : TokenStream) :
    reader.ofStream s = (reader.runOn s).map (·.1) := by
  unfold ofStream runOn
  cases (reader.run s.ending).run s.tokens <;> rfl

theorem reads_of_runOn {reader : Reader α} {s left : TokenStream} {v : α}
    (run : reader.runOn s = .ok (v, left)) :
    Reads reader s.ending s.tokens v left.tokens ∧ left.ending = s.ending := by
  unfold runOn at run
  cases outcome : (reader.run s.ending).run s.tokens with
  | error e =>
    rw [outcome] at run
    cases run
  | ok result =>
    rw [outcome] at run
    cases run
    exact ⟨outcome, rfl⟩

theorem runOn_bind (reader : Reader α) (f : α → Reader β) (s : TokenStream) :
    (reader >>= f).runOn s =
      match reader.runOn s with
      | .ok (v, left) => (f v).runOn left
      | .error e => .error e := by
  unfold runOn
  rw [run_bind]
  cases (reader.run s.ending).run s.tokens <;> rfl

theorem runOn_many (item : Reader (Option α)) (s : TokenStream) :
    runOn (many item) s =
      match item.runOn s with
      | .error e => .error e
      | .ok (none, left) => .ok ([], left)
      | .ok (some v, left) =>
        if left.tokens.length < s.tokens.length then
          (runOn (many item) left).map fun (vs, after) => (v :: vs, after)
        else .ok ([v], left) := by
  change (many item s.ending s.tokens).map _ = _
  rw [many.eq_def, runOn]
  cases (item.run s.ending).run s.tokens with
  | error e => rfl
  | ok result =>
    obtain ⟨v, rest⟩ := result
    cases v with
    | none => rfl
    | some v =>
      by_cases progress : rest.length < s.tokens.length
      · simp only [Except.map, if_pos progress]
        change _ = Except.map _ (Except.map _ (many item s.ending rest))
        cases many item s.ending rest <;> rfl
      · simp only [Except.map, if_neg progress]

end Reader

/-! ### What a run leaves -/

namespace CountingCursor

variable {look : Look} {c after : CountingCursor} {t : Located} {e : ReadError}

theorem stream_isProper (c : CountingCursor) : c.stream.ending.IsProper := by
  obtain ⟨⟨lexer, peeked⟩, _, _⟩ := c
  cases peeked with
  | none => exact (Lexer.run_isProper lexer).1
  | some t =>
    -- An end mark that was looked at is the ending, and any other token stands in front of it.
    unfold Cursor.stream
    split
    next => contradiction
    next same =>
      cases same
      split
      next last => exact last
      next => exact (Lexer.run_isProper lexer).1

/-- A look is one at the cursor that does not count. -/
theorem ask_eq_ok (asked : c.ask look = .ok (t, after)) :
    c.toCursor.ask look = .ok (t, after.toCursor) ∧ after.depth = c.depth := by
  unfold ask at asked
  cases shown : c.toCursor.ask look with
  | error e =>
    rw [shown] at asked
    cases asked
  | ok result =>
    rw [shown] at asked
    cases asked
    exact ⟨rfl, rfl⟩

theorem ask_eq_error (asked : c.ask look = .error e) : c.toCursor.ask look = .error e := by
  unfold ask at asked
  cases shown : c.toCursor.ask look with
  | error e =>
    rw [shown] at asked
    cases asked
    rfl
  | ok result =>
    rw [shown] at asked
    cases asked

/-- A look at a cursor is one at its stream, of which the cursor has the rest unless it took the end
mark. -/
theorem runOn_of_ask (asked : c.ask look = .ok (t, after)) :
    look.reader.runOn c.stream =
      .ok (t, if look = .next ∧ t.token = .eof then c.stream else after.stream) := by
  have same := Cursor.ask_eq look c.toCursor
  rwa [(ask_eq_ok asked).1] at same

theorem runOn_of_fault (asked : c.ask look = .error e) :
    look.reader.runOn c.stream = .error e := by
  have same := Cursor.ask_eq look c.toCursor
  rwa [ask_eq_error asked] at same

theorem stream_of_peek (asked : c.ask .peek = .ok (t, after)) : after.stream = c.stream := by
  obtain ⟨reads, ending⟩ := reads_of_runOn (runOn_of_ask asked)
  rw [if_neg nofun] at reads ending
  have tokens := (reads_peek_iff.mp reads).2
  calc after.stream
    _ = ⟨after.stream.tokens, after.stream.ending⟩ := rfl
    _ = c.stream := by rw [← tokens, ending]

theorem tokens_of_next (asked : c.ask .next = .ok (t, after)) (more : t.token ≠ .eof) :
    c.stream.tokens = t :: after.stream.tokens := by
  have reads := (reads_of_runOn (runOn_of_ask asked)).1
  rw [if_neg fun both => more both.2] at reads
  exact (reads_next_cons_iff c.stream_isProper more).mp reads

theorem left_le_of_ask (asked : c.ask look = .ok (t, after))
    (more : look = .next → t.token ≠ .eof) : after.left ≤ c.left := by
  cases look with
  | peek => exact Nat.le_of_eq (congrArg (·.tokens.length) (stream_of_peek asked))
  | next =>
    rw [left, left, tokens_of_next asked (more rfl), List.length_cons]
    exact Nat.le_succ _

/-- What a token opens is counted, if there is room for it. -/
theorem exists_of_descend {down : CountingCursor} (opened : c.descend t = .ok down) :
    ∃ more : c.depth < nestingLimit, down = ⟨c.toCursor, c.depth + 1, more⟩ := by
  unfold descend at opened
  split at opened
  next more =>
    cases opened
    exact ⟨more, rfl⟩
  next => cases opened

theorem eq_of_refused (refused : c.descend t = .error e) :
    c.room = 0 ∧ e = .tooDeep t := by
  unfold descend at refused
  split at refused
  next => cases refused
  next full =>
    cases refused
    exact ⟨Nat.sub_eq_zero_of_le (Nat.le_of_not_lt full), rfl⟩

theorem room_down (more : c.depth < nestingLimit) :
    c.room = room ⟨c.toCursor, c.depth + 1, more⟩ + 1 := by
  change nestingLimit - c.depth = nestingLimit - (c.depth + 1) + 1
  omega

end CountingCursor

namespace Runs

variable {reader : Nat → Reader α} {c : CountingCursor} {o : Except ReadError (α × CountingCursor)}

/-- A run that succeeds has closed what it opened, and it has only taken tokens. -/
theorem settled (run : Runs reader c o) : ∀ v after, o = .ok (v, after) →
    after.depth = c.depth ∧ after.left ≤ c.left := by
  induction run with
  | pure v c =>
    rintro _ _ ⟨⟩
    exact ⟨rfl, Nat.le_refl _⟩
  | shown asked more =>
    rintro _ _ ⟨⟩
    exact ⟨(CountingCursor.ask_eq_ok asked).2, CountingCursor.left_le_of_ask asked more⟩
  | throw | fault | atEnd | failed | manyFailed | nestedFailed | tooDeep => rintro _ _ ⟨⟩
  | bind _ _ ih ih' =>
    intro w after same
    obtain ⟨depth, left⟩ := ih _ _ rfl
    obtain ⟨depth', left'⟩ := ih' w after same
    exact ⟨depth'.trans depth, Nat.le_trans left' left⟩
  | manyNone _ ih =>
    rintro _ _ ⟨⟩
    exact ih _ _ rfl
  | @manySome _ _ _ _ _ o _ _ _ ih ih' =>
    intro w after same
    obtain ⟨depth, left⟩ := ih _ _ rfl
    cases o with
    | error e => cases same
    | ok result =>
      cases same
      obtain ⟨depth', left'⟩ := ih' _ _ rfl
      exact ⟨depth'.trans depth, Nat.le_trans left' left⟩
  | nested opened _ ih =>
    rintro _ _ ⟨⟩
    obtain ⟨more, rfl⟩ := CountingCursor.exists_of_descend opened
    obtain ⟨depth, left⟩ := ih _ _ rfl
    -- One level was counted in front of the inside, which leaves the count as it is.
    refine ⟨?_, left⟩
    change _ - 1 = _
    rw [depth, Nat.add_sub_cancel]

theorem room_eq {after : CountingCursor} {v : α} (run : Runs reader c (.ok (v, after))) :
    after.room = c.room := by
  rw [CountingCursor.room, CountingCursor.room, (run.settled v after rfl).1]

/-- A run comes to what the reader makes of the stream of the cursor, with as many levels left as
the count leaves. -/
theorem runOn_eq (run : Runs reader c o) :
    (reader c.room).runOn c.stream = o.map fun (v, after) => (v, after.stream) := by
  induction run with
  | pure v c => rfl
  | throw e c => rfl
  | shown asked more =>
    rw [CountingCursor.runOn_of_ask asked, if_neg fun both => more both.1 both.2]
    rfl
  | fault asked => exact CountingCursor.runOn_of_fault asked
  | atEnd asked last refuses =>
    -- Here the cursor and its stream part, but the reader looks at neither.
    rw [runOn_bind, show runOn next _ = _ from CountingCursor.runOn_of_ask asked]
    simp only [refuses]
    rfl
  | bind first _ ih ih' =>
    -- The second reader has as many levels left as the first one had.
    rw [first.room_eq] at ih'
    rw [runOn_bind, ih]
    exact ih'
  | failed _ ih =>
    rw [runOn_bind, ih]
    rfl
  | manyNone _ ih =>
    rw [runOn_many, ih]
    rfl
  | manyFailed _ ih =>
    rw [runOn_many, ih]
    rfl
  | @manySome _ _ c mid _ o round progress _ ih ih' =>
    rw [round.room_eq] at ih'
    rw [runOn_many, ih]
    have shorter : mid.stream.tokens.length < c.stream.tokens.length := progress
    simp only [Except.map, if_pos shorter]
    rw [show runOn (many _) mid.stream = _ from ih']
    cases o <;> rfl
  | nested opened _ ih =>
    obtain ⟨more, rfl⟩ := CountingCursor.exists_of_descend opened
    rw [CountingCursor.room_down more]
    exact ih
  | nestedFailed opened _ ih =>
    obtain ⟨more, rfl⟩ := CountingCursor.exists_of_descend opened
    rw [CountingCursor.room_down more]
    exact ih
  | tooDeep refused =>
    -- The count is at its limit exactly if no level is left.
    obtain ⟨room, rfl⟩ := CountingCursor.eq_of_refused refused
    rw [room]
    rfl

end Runs

end ProtoSchema
