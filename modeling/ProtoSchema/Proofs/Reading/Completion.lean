import ProtoSchema.Proofs.Lexing.Name
import ProtoSchema.Proofs.Lexing.Numeral
import ProtoSchema.Proofs.Lexing.Literal
import ProtoSchema.Proofs.Reading.Mirror
import ProtoSchema.Proofs.Reading.Reader

/-!
# Completing what was begun

A stream is cut off where a reader still misses a token. If some continuation of it does not fail
within what was read, there are tokens that complete it: behind them the reader succeeds or finds a
rule broken. `Completable` says so of a reader, and also which tokens take it from its beginning to
its end. It is kept by the ways to put readers together, as long as the tokens that complete the
first reader fit in front of those that begin the second one.
-/

namespace ProtoSchema.Reader

variable {α β : Type}

/-! ### Streams that are cut off -/

/-- The fault at which a stream ends that was cut off. -/
def cutOff : LexicalError := ⟨.invalidUtf8, .start⟩

/-- A stream that is cut off, and the whole of it. -/
def cutSimulation (P : Located → Prop) (ending : Ending) (more : List Located) : Simulation where
  toComparison := .exact fun t t' => t' = t ∧ P t
  ending := .failed cutOff
  ending' := ending
  more := more
  isCut := True
  ends := .inr ⟨trivial, cutOff, rfl⟩

theorem related_cutSimulation_iff {P : Located → Prop} {ending : Ending}
    {more ts ts' : List Located} :
    (cutSimulation P ending more).Related ts ts' ↔ ts' = ts ++ more ∧ ∀ t ∈ ts, P t := by
  constructor
  · rintro ⟨used, rfl, same⟩
    suffices whole : used = ts ∧ ∀ t ∈ ts, P t from ⟨by rw [whole.1]; rfl, whole.2⟩
    induction same with
    | nil => exact ⟨rfl, List.forall_mem_nil _⟩
    | cons first _ ih =>
      obtain ⟨same, inside⟩ := first.linked
      exact ⟨by rw [same, ih.1], List.forall_mem_cons.mpr ⟨inside, ih.2⟩⟩
  · rintro ⟨rfl, inside⟩
    refine ⟨ts, rfl, List.forall₂_same.mpr fun t member => ?_⟩
    exact ⟨rfl, rfl, rfl, rfl, inside t member⟩

/-- A reader that does not depend on what stands behind what it reads, and leaves only what it was
given. -/
structure Steady (r : Reader α) : Prop where
  mirrors : ∀ ending more, (cutSimulation (fun _ => True) ending more).Mirrors Eq r r
  subset : ∀ {ts rest v}, Reads r (.failed cutOff) ts v rest → rest ⊆ ts

namespace Steady

variable {r : Reader α} {ts rest : List Located} {v : α}

private theorem outcome {P : Located → Prop} {ending : Ending} {more : List Located}
    (h : (cutSimulation P ending more).Mirrors Eq r r)
    (reads : Reads r (.failed cutOff) ts v rest) (inside : ∀ t ∈ ts, P t) :
    Reads r ending (ts ++ more) v (rest ++ more) ∧ ∀ t ∈ rest, P t := by
  have outcome := h _ _ (related_cutSimulation_iff.mpr ⟨rfl, inside⟩)
  unfold Reads at reads ⊢
  change (cutSimulation P ending more).Outcome _ ((r.run (.failed cutOff)).run ts)
    ((r.run ending).run (ts ++ more)) at outcome
  rw [reads] at outcome
  generalize (r.run ending).run (ts ++ more) = o at outcome ⊢
  cases outcome with
  | ok same left =>
    obtain ⟨rfl, inside⟩ := related_cutSimulation_iff.mp left
    exact ⟨by rw [same], inside⟩

theorem reads (h : Steady r) (reads : Reads r (.failed cutOff) ts v rest) (ending : Ending)
    (more : List Located) : Reads r ending (ts ++ more) v (rest ++ more) :=
  (outcome (h.mirrors ending more) reads fun _ _ => trivial).1

/-- What is left is seen to come from what was given by linking only tokens of that. -/
theorem of_mirrors (h : ∀ P ending more, (cutSimulation P ending more).Mirrors Eq r r) :
    Steady r where
  mirrors := h _
  subset {ts _ _} reads := (outcome (h (· ∈ ts) (.failed cutOff) []) reads fun _ h => h).2

theorem bind {f : α → Reader β} (h : Steady r) (later : ∀ v, Steady (f v)) : Steady (r >>= f) where
  mirrors ending more :=
    (h.mirrors ending more).bind fun v _ same => same ▸ (later v).mirrors ending more
  subset reads := by
    obtain ⟨v, mid, first, second⟩ := reads_bind_iff.mp reads
    exact List.Subset.trans ((later v).subset second) (h.subset first)

end Steady

/-! ### Readers that miss a token -/

/-- A failure that nothing behind can mend: one of the lexer, or one at a token that was seen. -/
inductive IsHopeless (seen : List Located) : Except ReadError α → Prop
  | lexical (e : LexicalError) : IsHopeless seen (.error (.lexical e))
  | unexpected {t : Located} (expected : Expectation) (found : Token) :
      t ∈ seen → IsHopeless seen (.error (.unexpected ⟨t.position, expected, found⟩))

/-- What would be read otherwise is of no account. -/
theorem IsHopeless.of_error {seen : List Located} {o : Except ReadError α} {o' : Except ReadError β}
    (h : IsHopeless seen o) (same : ∀ e, o = .error e → o' = .error e) : IsHopeless seen o' := by
  cases h with
  | lexical e =>
    rw [same _ rfl]
    exact .lexical e
  | unexpected expected found member =>
    rw [same _ rfl]
    exact .unexpected expected found member

/-- A reader misses a token behind some tokens, and some continuation is not hopeless. -/
structure Pending (seen : List Located) (r : Reader α) (ts : List Located) : Prop where
  subset : ts ⊆ seen
  misses : (r.run (.failed cutOff)).run ts = .error (.lexical cutOff)
  hope : ∃ ending more, ¬ IsHopeless seen ((r.run ending).run (ts ++ more))

variable {seen ts ts' : List Located} {r r' : Reader α}

theorem Pending.of_run (h : Pending seen r ts) (subset : ts' ⊆ ts)
    (same : ∀ ending more, (r'.run ending).run (ts' ++ more) = (r.run ending).run (ts ++ more)) :
    Pending seen r' ts' where
  subset := List.Subset.trans subset h.subset
  misses := by simpa [h.misses] using same (.failed cutOff) []
  hope := by
    obtain ⟨ending, more, hope⟩ := h.hope
    exact ⟨ending, more, by rwa [same]⟩

/-- Of two readers in a row the first one misses the token, or the second one does. -/
theorem Pending.bind {f : α → Reader β} (steady : Steady r) (h : Pending seen (r >>= f) ts) :
    Pending seen r ts ∨
      ∃ v rest, Reads r (.failed cutOff) ts v rest ∧ Pending seen (f v) rest := by
  obtain ⟨subset, misses, ending, more, hope⟩ := h
  rw [run_bind] at misses hope
  -- Either the first reader fails, and then it is the one that misses the token, or it has a value,
  -- which does not depend on what follows.
  cases first : (r.run (.failed cutOff)).run ts with
  | error e =>
    rw [first] at misses
    cases misses
    exact .inl ⟨subset, first, ending, more, fun hopeless =>
      hope (hopeless.of_error fun e failed => by rw [failed])⟩
  | ok result =>
    obtain ⟨v, rest⟩ := result
    have whole := steady.reads first ending more
    rw [first] at misses
    rw [show (r.run ending).run (ts ++ more) = .ok (v, rest ++ more) from whole] at hope
    exact .inr ⟨v, rest, first, List.Subset.trans (steady.subset first) subset, misses, ending,
      more, hope⟩

/-! ### Completions -/

/-- The tokens that completions are made of. Each of them can be written. -/
inductive Stopgap where
  | mark (m : Mark)
  | keyword (k : Keyword)
  | name
  | number
  | literal (bytes : List UInt8)

/-- The token that a stopgap is. -/
def Stopgap.token : Stopgap → Token
  | mark m => .mark m
  | keyword k => k.token
  | name => .ident "x"
  | number => .int 1
  | literal bytes => .str bytes

/-- A reader succeeds and leaves a rest, or it finds a rule broken. -/
def Settles (r : Reader α) (ending : Ending) (ts rest : List Located) : Prop :=
  (∃ v, Reads r ending ts v rest) ∨
    ∃ broken position, (r.run ending).run ts = .error (.violation broken position)

/-- Behind these tokens and the ones that complete them a reader is settled, if a token that fits
follows. -/
def Completes (follow : Token → Prop) (r : Reader α) (ts : List Located)
    (completion : List Stopgap) : Prop :=
  ∀ cs ending after, cs.map Located.token = completion.map Stopgap.token → ending.IsProper →
    Sees follow ending after → Settles r ending (ts ++ (cs ++ after)) after

/-- Where a reader misses a token it can be completed. -/
def Viable (follow : Token → Prop) (r : Reader α) (ts : List Located) : Prop :=
  ∀ seen, Pending seen r ts → ∃ completion, Completes follow r ts completion

/-- Once it has read a token, a reader can be completed. -/
structure Resumable (follow : Token → Prop) (r : Reader α) : Prop where
  steady : Steady r
  viable : ∀ ts, ts ≠ [] → Viable follow r ts

/-- A reader can be completed, and these tokens take it from its beginning to its end. -/
structure Completable (follow : Token → Prop) (whole : List Stopgap) (r : Reader α) : Prop
    extends Resumable follow r where
  start : Completes follow r [] whole

theorem Completable.viable_anywhere {follow : Token → Prop} {whole : List Stopgap}
    (h : Completable follow whole r) (ts : List Located) : Viable follow r ts := by
  by_cases nonempty : ts = []
  · subst nonempty
    exact fun _ _ => ⟨whole, h.start⟩
  · exact h.viable ts nonempty

/-- The first of some tokens, or what follows if there is none, fits in front. -/
def Leads (front follow : Token → Prop) : List Stopgap → Prop
  | [] => ∀ t, follow t → front t
  | g :: _ => front g.token

variable {front follow : Token → Prop} {first second whole : List Stopgap}

theorem Leads.cons {g : Stopgap} (h : front g.token) : Leads front follow (g :: whole) := h

theorem Leads.sees {cs after : List Located} {ending : Ending} (h : Leads front follow whole)
    (same : cs.map Located.token = whole.map Stopgap.token) (sees : Sees follow ending after) :
    Sees front ending (cs ++ after) := by
  cases whole with
  | nil =>
    obtain rfl := List.map_eq_nil_iff.mp same
    exact sees.mono h
  | cons g whole =>
    obtain ⟨t, cs, rfl, token, _⟩ := List.map_eq_cons_iff.mp same
    exact sees_cons_iff.mpr (token ▸ h)

/-- Nothing has to be written for a reader that takes nothing. -/
theorem completes_nil (settles : ∀ ending after, ending.IsProper → Sees follow ending after →
    Settles r ending after after) : Completes follow r [] [] := by
  intro cs ending after same proper sees
  obtain rfl := List.map_eq_nil_iff.mp same
  exact settles ending after proper sees

theorem completes_single {g : Stopgap} (reads : ∀ t ending after, t.token = g.token →
    ending.IsProper → Sees follow ending after → ∃ v, Reads r ending (t :: after) v after) :
    Completes follow r [] [g] := by
  intro cs ending after same proper sees
  obtain ⟨t, rfl, token⟩ := List.map_eq_singleton_iff.mp same
  exact .inl (reads t ending after token proper sees)

/-! ### Readers in a row -/

theorem Settles.bind {f : α → Reader β} {ending : Ending} {mid rest : List Located}
    (h : Settles r ending ts mid)
    (later : ∀ v, Reads r ending ts v mid → Settles (f v) ending mid rest) :
    Settles (r >>= f) ending ts rest := by
  unfold Settles
  simp only [reads_bind_iff, run_bind]
  rcases h with ⟨v, reads⟩ | ⟨broken, position, failed⟩
  · have run : (r.run ending).run ts = .ok (v, mid) := reads
    rw [run]
    rcases later v reads with ⟨w, reads'⟩ | failed
    · exact .inl ⟨w, v, mid, reads, reads'⟩
    · exact .inr failed
  · exact .inr ⟨broken, position, by rw [failed]⟩

theorem Completes.bind {f : α → Reader β} (h : Completes front r ts first)
    (later : ∀ v, Completes follow (f v) [] second) (leads : Leads front follow second) :
    Completes follow (r >>= f) ts (first ++ second) := by
  intro cs ending after same proper sees
  rw [List.map_append] at same
  -- The tokens written for the first reader end where those for the second one begin.
  obtain ⟨cs, cs', rfl, same, same'⟩ := List.map_eq_append_iff.mp same
  rw [List.append_assoc]
  exact (h cs ending _ same proper (leads.sees same' sees)).bind fun v _ =>
    later v cs' ending after same' proper sees

theorem Viable.of_run {ts' : List Located} (h : Viable follow r' ts') (subset : ts' ⊆ ts)
    (same : ∀ ending more, (r'.run ending).run (ts' ++ more) = (r.run ending).run (ts ++ more)) :
    Viable follow r ts := by
  intro seen pending
  obtain ⟨completion, completes⟩ := h seen (pending.of_run subset same)
  refine ⟨completion, fun cs ending after tokens proper sees => ?_⟩
  have settles := completes cs ending after tokens proper sees
  unfold Settles Reads at settles ⊢
  rwa [same] at settles

/-- A reader that misses no token need not be completed. -/
theorem viable_of_ne (h : (r.run (.failed cutOff)).run ts ≠ .error (.lexical cutOff)) :
    Viable follow r ts :=
  fun _ pending => absurd pending.misses h

theorem Viable.bind {f : α → Reader β} (h : Viable front r ts) (steady : Steady r)
    (resumed : ∀ v rest, Reads r (.failed cutOff) ts v rest → Viable follow (f v) rest)
    (later : ∀ v, Completes follow (f v) [] second) (leads : Leads front follow second) :
    Viable follow (r >>= f) ts := by
  intro seen pending
  rcases pending.bind steady with pending | ⟨v, rest, reads, pending⟩
  · -- Behind what completes the first reader the second one is written as a whole.
    obtain ⟨completion, completes⟩ := h seen pending
    exact ⟨completion ++ second, completes.bind later leads⟩
  · obtain ⟨completion, completes⟩ := resumed v rest reads seen pending
    refine ⟨completion, fun cs ending after same proper sees => ?_⟩
    have whole := steady.reads reads ending (cs ++ after)
    refine Settles.bind (.inl ⟨v, whole⟩) fun w reads' => ?_
    obtain ⟨rfl, _⟩ := whole.unique reads'
    exact completes cs ending after same proper sees

theorem Resumable.bind {f : α → Reader β} (h : Resumable front r)
    (later : ∀ v, Completable follow second (f v)) (leads : Leads front follow second) :
    Resumable follow (r >>= f) where
  steady := h.steady.bind fun v => (later v).steady
  viable ts nonempty := (h.viable ts nonempty).bind h.steady
    (fun v rest _ => (later v).viable_anywhere rest) (fun v => (later v).start) leads

theorem Completable.bind {f : α → Reader β} (h : Completable front first r)
    (later : ∀ v, Completable follow second (f v)) (leads : Leads front follow second) :
    Completable follow (first ++ second) (r >>= f) where
  toResumable := h.toResumable.bind later leads
  start := h.start.bind (fun v => (later v).start) leads

/-- Behind a reader that looks no further than it reads anything may follow. -/
theorem Completable.seq {f : α → Reader β} (h : Completable (fun _ => True) first r)
    (later : ∀ v, Completable follow second (f v)) :
    Completable follow (first ++ second) (r >>= f) :=
  h.bind later (by cases second <;> simp [Leads])

/-! ### Answers and failures -/

theorem steady_pure (v : α) : Steady (pure v : Reader α) :=
  .of_mirrors fun _ _ _ => Simulation.mirrors_pure rfl

theorem completable_pure (v : α) : Completable follow [] (pure v) where
  steady := steady_pure v
  viable _ _ := viable_of_ne (by rw [run_pure]; simp)
  start := completes_nil fun _ _ _ _ => .inl ⟨v, reads_pure_iff.mpr ⟨rfl, rfl⟩⟩

theorem viable_unexpected (t : Located) (expected : Expectation) :
    Viable follow (unexpected t expected : Reader α) ts :=
  viable_of_ne (by rw [unexpected, run_throw]; simp)

theorem resumable_unexpected (t : Located) (expected : Expectation) :
    Resumable follow (unexpected t expected : Reader α) where
  steady := {
    mirrors _ _ := Simulation.mirrors_throw (.unexpected ⟨rfl, rfl, rfl, rfl, trivial⟩)
    subset reads := absurd reads not_reads_unexpected }
  viable _ _ := viable_unexpected t expected

theorem completable_accept (position : Position) (outcome : Except Violation α) :
    Completable follow [] (accept position outcome) := by
  cases outcome with
  | ok v => exact completable_pure v
  | error broken =>
    have missesNothing (ts : List Located) :
        Viable follow (accept position (.error broken) : Reader α) ts :=
      viable_of_ne (by rw [accept, run_throw]; simp)
    refine ⟨⟨.of_mirrors fun _ _ _ => Simulation.mirrors_throw (.violation rfl),
      fun ts _ => missesNothing ts⟩, ?_⟩
    exact completes_nil fun _ _ _ _ => .inr ⟨broken, position, rfl⟩

/-- What was read is made into something. -/
theorem Completable.resumable_return {f : α → β} (h : Completable (fun _ => True) whole r) :
    Resumable follow (r >>= fun v => pure (f v)) :=
  (h.seq fun v => completable_pure (f v)).toResumable

theorem Completable.map {f : α → β} (h : Completable follow whole r) :
    Completable follow whole (f <$> r) := by
  rw [← bind_pure_comp, ← List.append_nil whole]
  exact h.bind (fun _ => completable_pure _) fun _ fits => fits

/-! ### Single tokens -/

theorem steady_peek : Steady peek :=
  .of_mirrors fun _ _ _ => Simulation.mirrors_peek.mono fun _ _ same => same.linked.1.symm

theorem steady_next : Steady next :=
  .of_mirrors fun _ _ _ => Simulation.mirrors_next.mono fun _ _ same => same.linked.1.symm

theorem viable_peek_bind {f : Located → Reader α} {t : Located}
    (h : Viable follow (f t) (t :: ts)) : Viable follow (peek >>= f) (t :: ts) :=
  h.of_run (List.Subset.refl _) fun _ _ => rfl

/-- The next token may be looked at first. -/
theorem Resumable.peek {f : Located → Reader α} (h : ∀ t, Resumable follow (f t)) :
    Resumable follow (Reader.peek >>= f) where
  steady := steady_peek.bind fun t => (h t).steady
  viable ts nonempty := by
    obtain ⟨t, ts, rfl⟩ := List.exists_cons_of_ne_nil nonempty
    exact viable_peek_bind ((h t).viable _ nonempty)

theorem Completable.peek {f : Located → Reader α} (h : ∀ t, Completable follow whole (f t)) :
    Completable follow whole (Reader.peek >>= f) where
  toResumable := .peek fun t => (h t).toResumable
  start cs ending after same proper sees := by
    -- Some token is there to be looked at: the first one that was written, or the one that follows.
    obtain ⟨t, seen, _⟩ : Sees (fun _ => True) ending (cs ++ after) := by
      cases cs with
      | nil => exact sees.mono fun _ _ => trivial
      | cons t cs => exact sees_cons_iff.mpr trivial
    exact Settles.bind (.inl ⟨t, reads_peek_iff.mpr ⟨seen, rfl⟩⟩) fun t' _ =>
      (h t').start cs ending after same proper sees

theorem completable_next : Completable follow [.name] next where
  steady := steady_next
  viable ts nonempty := by
    obtain ⟨t, ts, rfl⟩ := List.exists_cons_of_ne_nil nonempty
    exact viable_of_ne (by rw [run_next_cons]; simp)
  start := completes_single fun t ending after _ _ _ => ⟨t, run_next_cons t ending after⟩

theorem viable_next_bind {f : Located → Reader α} (h : ∀ t ts, Viable follow (f t) ts)
    (ts : List Located) (nonempty : ts ≠ []) : Viable follow (next >>= f) ts := by
  obtain ⟨t, ts, rfl⟩ := List.exists_cons_of_ne_nil nonempty
  exact (h t ts).of_run (List.subset_cons_self t ts) fun _ _ => rfl

/-- A reader that takes the next token if it passes a check. -/
private theorem completable_check {f : Located → Reader α} {g : Stopgap}
    (steady : Steady (next >>= f))
    (checked : ∀ t, (∃ v, f t = pure v) ∨ ∃ expected, f t = unexpected t expected)
    (fits : ∀ t, t.token = g.token → ∃ v, f t = pure v) : Completable follow [g] (next >>= f) where
  steady := steady
  viable := viable_next_bind fun t ts => by
    rcases checked t with ⟨v, passes⟩ | ⟨expected, fails⟩
    · rw [passes]
      exact viable_of_ne (by rw [run_pure]; simp)
    · rw [fails]
      exact viable_unexpected t expected
  start := completes_single fun t ending after token _ _ => by
    obtain ⟨v, passes⟩ := fits t token
    refine ⟨v, reads_bind_iff.mpr ⟨t, after, run_next_cons t ending after, ?_⟩⟩
    rw [passes, reads_pure_iff]
    exact ⟨rfl, rfl⟩

theorem completable_expect (m : Mark) : Completable follow [.mark m] (expect m) := by
  refine completable_check (.of_mirrors fun _ _ _ => Simulation.mirrors_expect m) (fun t => ?_) fun t fits => ?_
  · split
    · exact .inl ⟨_, rfl⟩
    · exact .inr ⟨_, rfl⟩
  · exact ⟨(), if_pos fits⟩

theorem completable_expectKeyword (k : Keyword) :
    Completable follow [.keyword k] (expectKeyword k) := by
  have steady : Steady (expectKeyword k) := .of_mirrors fun _ _ _ =>
    (Simulation.mirrors_expectKeyword k).mono fun _ _ same => same.linked.1.symm
  refine completable_check steady (fun t => ?_) fun t fits => ?_
  · split
    · exact .inl ⟨_, rfl⟩
    · exact .inr ⟨_, rfl⟩
  · rw [if_pos (Token.keyword?_eq_some_iff.mpr fits)]
    exact ⟨_, rfl⟩

theorem run_expectKeyword_cons (k : Keyword) (t : Located) (ending : Ending) (ts : List Located) :
    ((expectKeyword k).run ending).run (t :: ts) =
      if t.token.keyword? = some k then .ok (t, ts)
      else .error (.unexpected ⟨t.position, .keyword k, t.token⟩) := by
  simp only [expectKeyword, run_bind, run_next_cons]
  split <;> rfl

theorem completable_ident (expected : Expectation) :
    Completable follow [.name] (ident expected) := by
  refine completable_check (.of_mirrors fun _ _ _ => Simulation.mirrors_ident expected) (fun t => ?_)
    fun t fits => ?_
  · split
    · exact .inl ⟨_, rfl⟩
    · exact .inr ⟨_, rfl⟩
  · rw [fits]
    exact ⟨_, rfl⟩

theorem completable_plainName (expected : Expectation) :
    Completable follow [.name] (plainName expected) := by
  refine completable_check (.of_mirrors fun _ _ _ => Simulation.mirrors_plainName expected) (fun t => ?_)
    fun t fits => ?_
  · split
    · split
      · exact .inl ⟨_, rfl⟩
      · exact .inr ⟨_, rfl⟩
    · exact .inr ⟨_, rfl⟩
  · have plain : isPlainName "x" = true := by decide
    rw [fits]
    exact ⟨"x", if_pos plain⟩

theorem completable_int (expected : Expectation) :
    Completable follow [.number] (int expected) := by
  refine completable_check (.of_mirrors fun _ _ _ => Simulation.mirrors_int expected) (fun t => ?_)
    fun t fits => ?_
  · split
    · exact .inl ⟨_, rfl⟩
    · exact .inr ⟨_, rfl⟩
  · rw [fits]
    exact ⟨_, rfl⟩

/-! ### Tokens that may be left out -/

/-- A reader that takes the next token if it is a certain one. -/
structure IsEater (token : Token) (eater : Reader Bool) : Prop where
  steady : Steady eater
  cons : ∀ ending t ts, (eater.run ending).run (t :: ts) =
    if t.token = token then .ok (true, ts) else .ok (false, t :: ts)
  other : ∀ {ending ts}, Sees (· ≠ token) ending ts → Reads eater ending ts false ts

theorem isEater_eat (m : Mark) : IsEater (.mark m) (eat m) where
  steady := .of_mirrors fun _ _ _ => Simulation.mirrors_eat m
  cons ending t ts := run_eat_cons m t ending ts
  other sees := by
    refine sees.reads_peek_bind fun t other => ?_
    rw [if_neg other]
    exact reads_pure_iff.mpr ⟨rfl, rfl⟩

theorem isEater_eatKeyword (k : Keyword) : IsEater k.token (eatKeyword k) where
  steady := .of_mirrors fun _ _ _ => Simulation.mirrors_eatKeyword k
  cons ending t ts := by
    simp only [eatKeyword, run_bind, run_peek_cons, Token.keyword?_eq_some_iff]
    split <;> rfl
  other sees := by
    refine sees.reads_peek_bind fun t other => ?_
    rw [if_neg (mt Token.keyword?_eq_some_iff.mp other)]
    exact reads_pure_iff.mpr ⟨rfl, rfl⟩

namespace IsEater

variable {token : Token} {eater : Reader Bool} {yes no : Reader α}

/-- Once a token is there, it is clear whether it is taken. -/
theorem resumable (h : IsEater token eater) : Resumable follow eater where
  steady := h.steady
  viable ts nonempty := by
    obtain ⟨t, ts, rfl⟩ := List.exists_cons_of_ne_nil nonempty
    refine viable_of_ne ?_
    rw [h.cons]
    split <;> simp

theorem completable (h : IsEater token eater) : Completable (· ≠ token) [] eater where
  toResumable := h.resumable
  start := completes_nil fun _ _ _ sees => .inl ⟨false, h.other sees⟩

theorem completable_taking {g : Stopgap} (h : IsEater g.token eater) :
    Completable follow [g] eater where
  toResumable := h.resumable
  start := completes_single fun t ending after token _ _ =>
    ⟨true, (h.cons ending t after).trans (if_pos token)⟩

theorem resumable_branch (h : IsEater token eater) (left : Completable follow first yes)
    (right : Resumable follow no) :
    Resumable follow (eater >>= fun b => if b = true then yes else no) where
  steady := h.steady.bind fun b => by
    cases b
    · exact right.steady
    · exact left.steady
  viable ts nonempty := by
    obtain ⟨t, ts, rfl⟩ := List.exists_cons_of_ne_nil nonempty
    by_cases taken : t.token = token
    · refine (left.viable_anywhere ts).of_run (List.subset_cons_self t ts) fun ending more => ?_
      rw [run_bind, List.cons_append, h.cons, if_pos taken]
      rfl
    · refine (right.viable _ nonempty).of_run (List.Subset.refl _) fun ending more => ?_
      rw [run_bind, List.cons_append, h.cons, if_neg taken]
      rfl

/-- From its beginning such a reader is completed without the token. -/
theorem completable_branch (h : IsEater token eater) (left : Completable follow first yes)
    (right : Completable follow whole no) (leads : Leads (· ≠ token) follow whole) :
    Completable follow whole (eater >>= fun b => if b = true then yes else no) where
  toResumable := h.resumable_branch left right.toResumable
  start cs ending after same proper sees := by
    -- What was written begins with another token, so nothing is eaten.
    have left : Reads eater ending (cs ++ after) false (cs ++ after) :=
      h.other (leads.sees same sees)
    refine Settles.bind (.inl ⟨false, left⟩) fun b reads => ?_
    obtain ⟨rfl, _⟩ := reads.unique left
    exact right.start cs ending after same proper sees

/-- From its beginning such a reader is completed with the token. -/
theorem completable_branch_taking {g : Stopgap} (h : IsEater g.token eater)
    (left : Completable follow whole yes) (right : Resumable follow no) :
    Completable follow (g :: whole) (eater >>= fun b => if b = true then yes else no) where
  toResumable := h.resumable_branch left right
  start cs ending after same proper sees := by
    obtain ⟨t, cs, rfl, token, tail⟩ := List.map_eq_cons_iff.mp same
    have taken : Reads eater ending (t :: (cs ++ after)) true (cs ++ after) :=
      (h.cons ending t _).trans (if_pos token)
    refine Settles.bind (.inl ⟨true, taken⟩) fun b reads => ?_
    obtain ⟨rfl, _⟩ := reads.unique taken
    exact left.start cs ending after tail proper sees

end IsEater

/-! ### Repetition -/

section Many

variable {item : Reader (Option α)}

theorem steady_many (h : Steady item) : Steady (many item) where
  mirrors ending more := (h.mirrors ending more).many_eq
  subset {ts rest vs} reads := by
    change many item (.failed cutOff) ts = .ok (vs, rest) at reads
    revert vs rest
    fun_induction many item (.failed cutOff) ts with
    | case1 => exact fun reads => by cases reads
    | case2 ts rest found =>
      intro _ _ reads
      cases reads
      exact h.subset found
    | case3 => exact fun reads => by cases reads
    | case4 ts v rest found progress vs after more ih =>
      intro _ _ reads
      cases reads
      exact List.Subset.trans (ih more) (h.subset found)
    | case5 ts v rest found stuck =>
      intro _ _ reads
      cases reads
      exact h.subset found

/-- A last item and what makes items stop, if the item did not turn out to be none. -/
private theorem Completes.many {stop : List Stopgap} (h : Completes front item ts first)
    (leads : Leads front follow stop) (nonempty : ts ≠ [])
    (stops : ∀ cs ending after, cs.map Located.token = stop.map Stopgap.token → ending.IsProper →
      Sees follow ending after → Reads item ending (cs ++ after) none after)
    (early : stop ≠ [] → ∀ ending more rest, ¬ Reads item ending (ts ++ more) none rest) :
    Completes follow (Reader.many item) ts (first ++ stop) := by
  intro cs ending after same proper sees
  rw [List.map_append] at same
  obtain ⟨cs, cs', rfl, same, same'⟩ := List.map_eq_append_iff.mp same
  rw [List.append_assoc]
  have last := stops cs' ending after same' proper sees
  rcases h cs ending _ same proper (leads.sees same' sees) with ⟨v, reads⟩ | ⟨b, p, failed⟩
  · cases v with
    | none =>
      -- An item that was completed may still be none. Then it has stopped the row by itself.
      by_cases closes : stop = []
      · subst closes
        obtain rfl := List.map_eq_nil_iff.mp same'
        exact .inl ⟨[], reads_many_nil_iff.mpr reads⟩
      · exact absurd reads (early closes ending _ _)
    | some v =>
      have := List.length_pos_iff.mpr nonempty
      refine .inl ⟨[v], reads_many_cons_of reads ?_ (reads_many_nil_iff.mpr last)⟩
      simp only [List.length_append]
      omega
  · exact .inr ⟨b, p, many_of_error failed⟩

/-- Of items in a row the first one misses the token, or one of the others does. -/
private theorem Pending.many (steady : Steady item) (h : Pending seen (Reader.many item) ts) :
    Pending seen item ts ∨ ∃ v rest, Reads item (.failed cutOff) ts (some v) rest ∧
      rest.length < ts.length ∧ Pending seen (Reader.many item) rest := by
  obtain ⟨subset, misses, ending, more, hope⟩ := h
  change Reader.many item (.failed cutOff) ts = _ at misses
  change ¬ IsHopeless seen (Reader.many item ending (ts ++ more)) at hope
  cases found : (item.run (.failed cutOff)).run ts with
  | error e =>
    cases misses.symm.trans (many_of_error found)
    exact .inl ⟨subset, found, ending, more, fun hopeless =>
      hope (hopeless.of_error fun e failed => many_of_error failed)⟩
  | ok result =>
    obtain ⟨v, rest⟩ := result
    cases v with
    | none => cases misses.symm.trans (reads_many_nil_iff.mpr found)
    | some v =>
      by_cases progress : rest.length < ts.length
      · refine .inr ⟨v, rest, found, progress, List.Subset.trans (steady.subset found) subset, ?_,
          ending, more, fun hopeless => hope (hopeless.of_error fun e failed => ?_)⟩
        · change Reader.many item (.failed cutOff) rest = _
          rw [many_of_reads found progress] at misses
          cases behind : Reader.many item (.failed cutOff) rest with
          | ok result =>
            rw [behind] at misses
            cases misses
          | error e =>
            rw [behind] at misses
            exact misses
        · change Reader.many item ending (rest ++ more) = _ at failed
          rw [many_of_reads (steady.reads found ending more)
            (by simp only [List.length_append]; omega), failed]
          rfl
      · -- Items that take nothing end the row, so no token is missed.
        rw [many.eq_def, found] at misses
        simp only [if_neg progress] at misses
        cases misses

/-- A row of items is completed like what is left of it behind the first one. -/
private theorem Completes.many_behind {completion : List Stopgap} {v : α} {rest : List Located}
    (steady : Steady item) (reads : Reads item (.failed cutOff) ts (some v) rest)
    (progress : rest.length < ts.length)
    (h : Completes follow (Reader.many item) rest completion) :
    Completes follow (Reader.many item) ts completion := by
  intro cs ending after same proper sees
  have whole : Reader.many item ending (ts ++ (cs ++ after)) =
      (Reader.many item ending (rest ++ (cs ++ after))).map
        fun result => (v :: result.1, result.2) :=
    many_of_reads (steady.reads reads ending _) (by simp only [List.length_append]; omega)
  rcases h cs ending after same proper sees with ⟨vs, reads⟩ | ⟨b, p, failed⟩
  · have run : Reader.many item ending (rest ++ (cs ++ after)) = .ok (vs, after) := reads
    exact .inl ⟨v :: vs, whole.trans (by rw [run]; rfl)⟩
  · have run : Reader.many item ending (rest ++ (cs ++ after)) = .error (.violation b p) := failed
    exact .inr ⟨b, p, whole.trans (by rw [run]; rfl)⟩

/-- Items are completed one by one; the last one is followed by what makes them stop. -/
private theorem viable_many {stop : List Stopgap} (items : Resumable front item)
    (leads : Leads front follow stop)
    (stops : ∀ cs ending after, cs.map Located.token = stop.map Stopgap.token → ending.IsProper →
      Sees follow ending after → Reads item ending (cs ++ after) none after)
    (early : stop ≠ [] → ∀ ts, ts ≠ [] →
      (item.run (.failed cutOff)).run ts = .error (.lexical cutOff) →
      ∀ ending more rest, ¬ Reads item ending (ts ++ more) none rest)
    (ts : List Located) : Viable follow (many item) ts := by
  intro seen pending
  by_cases nonempty : ts = []
  · subst nonempty
    exact ⟨stop, fun cs ending after same proper sees =>
      .inl ⟨[], reads_many_nil_iff.mpr (stops cs ending after same proper sees)⟩⟩
  rcases pending.many items.steady with pending | ⟨v, rest, reads, progress, pending⟩
  · obtain ⟨completion, completes⟩ := items.viable ts nonempty seen pending
    exact ⟨_, completes.many leads nonempty stops fun closes =>
      early closes ts nonempty pending.misses⟩
  · -- Behind the first item there are fewer tokens, and the argument is the same.
    obtain ⟨completion, completes⟩ := viable_many items leads stops early rest seen pending
    exact ⟨completion, completes.many_behind items.steady reads progress⟩
termination_by ts.length

/-- Items up to where these tokens stop them. If that takes tokens, whether there is a further item
is to be seen at once. -/
theorem completable_many_until {stop : List Stopgap} (items : Resumable front item)
    (leads : Leads front follow stop)
    (stops : ∀ cs ending after, cs.map Located.token = stop.map Stopgap.token → ending.IsProper →
      Sees follow ending after → Reads item ending (cs ++ after) none after)
    (early : stop ≠ [] → ∀ ts, ts ≠ [] →
      (item.run (.failed cutOff)).run ts = .error (.lexical cutOff) →
      ∀ ending more rest, ¬ Reads item ending (ts ++ more) none rest) :
    Completable follow stop (many item) where
  steady := steady_many items.steady
  viable ts _ := viable_many items leads stops early ts
  start cs ending after same proper sees :=
    .inl ⟨[], reads_many_nil_iff.mpr (stops cs ending after same proper sees)⟩

/-- Items up to a token that is none of them. -/
theorem completable_many (items : Resumable front item) (imp : ∀ t, follow t → front t)
    (stops : ∀ ending after, ending.IsProper → Sees follow ending after →
      Reads item ending after none after) :
    Completable follow [] (many item) := by
  refine completable_many_until items imp (fun cs ending after same proper sees => ?_)
    fun nonempty => absurd rfl nonempty
  obtain rfl := List.map_eq_nil_iff.mp same
  exact stops ending after proper sees

/-- Items with commas between them, up to a token that is no comma. -/
theorem Completable.commaSeparated (h : Completable front whole r)
    (imp : ∀ t, follow t → front t ∧ t ≠ .mark .comma) :
    Completable follow whole (Reader.commaSeparated r) := by
  have item : Completable front (whole ++ []) (r >>= fun v => pure (some v)) :=
    h.bind (fun _ => completable_pure _) fun _ fits => fits
  have more := (isEater_eat .comma).resumable_branch item (completable_pure none).toResumable
  have rest := completable_many more (fun t fits => (imp t fits).1) fun ending after proper sees =>
    (reads_ifEat_iff proper).mpr
      (.inr ⟨sees.mono fun t fits => (imp t fits).2, reads_pure_iff.mpr ⟨rfl, rfl⟩⟩)
  have row := h.bind (fun first => rest.bind (fun vs => completable_pure (first :: vs))
    fun _ fits => fits) fun t fits => (imp t fits).1
  rwa [List.append_nil, List.append_nil] at row

end Many

end ProtoSchema.Reader
