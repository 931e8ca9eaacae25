import ProtoSchema.Proofs.Grammar.Phrase

/-!
# What readers accept

`Reads` says that a reader succeeds on some tokens, with which value and what it leaves. For each
basic reader and each way to put readers together there is one equivalence that says when it holds;
everything about larger readers follows from these.
-/

namespace ProtoSchema

/-- The end mark is the end of the text. -/
def Ending.IsProper : Ending → Prop
  | .finished endMark => endMark.token = .eof
  | .failed _ => True

namespace Reader

open Grammar

variable {α β : Type} {ending : Ending} {ts rest : List Located}

/-- A reader succeeds on these tokens with a value and leaves a rest. -/
def Reads (reader : Reader α) (ending : Ending) (ts : List Located) (value : α)
    (rest : List Located) : Prop :=
  (reader.run ending).run ts = .ok (value, rest)

/-- The token that a reader sees next, be it the end mark. -/
def front? (ending : Ending) : List Located → Option Located
  | t :: _ => some t
  | [] =>
    match ending with
    | .finished endMark => some endMark
    | .failed _ => none

/-- There is a next token and it satisfies `p`. -/
def Sees (p : Token → Prop) (ending : Ending) (ts : List Located) : Prop :=
  ∃ t, front? ending ts = some t ∧ p t.token

/-- The tokens begin with ones that are these words. -/
def Takes (ts : List Located) (ws : List Word) (rest : List Located) : Prop :=
  ∃ used, ts = used ++ rest ∧ used.map Located.word = ws

@[simp] theorem front?_cons (t : Located) : front? ending (t :: rest) = some t := rfl

@[simp] theorem sees_cons_iff {p : Token → Prop} {t : Located} :
    Sees p ending (t :: rest) ↔ p t.token := by
  simp [Sees]

@[simp] theorem takes_nil_iff : Takes ts [] rest ↔ ts = rest := by
  simp [Takes]

theorem takes_cons_iff {w : Word} {ws : List Word} :
    Takes ts (w :: ws) rest ↔ ∃ t mid, ts = t :: mid ∧ t.word = w ∧ Takes mid ws rest := by
  constructor
  · rintro ⟨used, rfl, same⟩
    obtain ⟨t, used, rfl, rfl, rfl⟩ := List.map_eq_cons_iff.mp same
    exact ⟨t, used ++ rest, rfl, rfl, used, rfl, rfl⟩
  · rintro ⟨t, _, rfl, rfl, used, rfl, rfl⟩
    exact ⟨t :: used, rfl, rfl⟩

theorem takes_cons_cons_iff {t : Located} {w : Word} {ws : List Word} :
    Takes (t :: ts) (w :: ws) rest ↔ t.word = w ∧ Takes ts ws rest := by
  rw [takes_cons_iff]
  constructor
  · rintro ⟨_, _, same, word, takes⟩
    cases same
    exact ⟨word, takes⟩
  · rintro ⟨word, takes⟩
    exact ⟨t, ts, rfl, word, takes⟩

theorem token_of_takes {t : Located} {token : Token} {doc : String} {ws : List Word}
    (h : Takes (t :: ts) (⟨token, doc⟩ :: ws) rest) : t.token = token :=
  (Located.word_eq_iff.mp (takes_cons_cons_iff.mp h).1).1

theorem takes_append_iff {ws ws' : List Word} :
    Takes ts (ws ++ ws') rest ↔ ∃ mid, Takes ts ws mid ∧ Takes mid ws' rest := by
  induction ws generalizing ts with
  | nil => simp
  | cons w ws ih =>
    simp only [List.cons_append, takes_cons_iff, ih]
    constructor
    · rintro ⟨t, mid, same, word, mid', left, right⟩
      exact ⟨mid', ⟨t, mid, same, word, left⟩, right⟩
    · rintro ⟨mid', ⟨t, mid, same, word, left⟩, right⟩
      exact ⟨t, mid, same, word, mid', left, right⟩

theorem takes_single_iff {w : Word} : Takes ts [w] rest ↔ ∃ t, ts = t :: rest ∧ t.word = w := by
  simp only [takes_cons_iff, takes_nil_iff]
  constructor
  · rintro ⟨t, _, rfl, word, rfl⟩
    exact ⟨t, rfl, word⟩
  · rintro ⟨t, rfl, word⟩
    exact ⟨t, rest, rfl, word, rfl⟩

/-- A first word is taken by itself. -/
theorem takes_head_iff {w : Word} {ws : List Word} :
    Takes ts (w :: ws) rest ↔ ∃ mid, Takes ts [w] mid ∧ Takes mid ws rest := by
  rw [← takes_append_iff, List.singleton_append]

theorem Takes.trans {mid : List Located} {ws ws' : List Word} (left : Takes ts ws mid)
    (right : Takes mid ws' rest) : Takes ts (ws ++ ws') rest :=
  takes_append_iff.mpr ⟨mid, left, right⟩

theorem Takes.length_lt {ws : List Word} (h : Takes ts ws rest) (nonempty : ws ≠ []) :
    rest.length < ts.length := by
  obtain ⟨used, rfl, rfl⟩ := h
  cases used with
  | nil => exact absurd rfl nonempty
  | cons t used =>
    rw [List.cons_append, List.length_cons, List.length_append]
    omega

/-- What is seen is a token of the text unless it is its end. -/
theorem eq_cons_of_front? {t : Located} (proper : ending.IsProper)
    (h : front? ending ts = some t) (more : t.token ≠ .eof) : ts = t :: ts.tail := by
  cases ts with
  | cons t' ts => cases h; rfl
  | nil =>
    cases ending with
    | finished endMark => cases h; exact absurd proper more
    | failed error => cases h

/-- What is seen behind the last token is the end of the text. -/
theorem eof_of_front?_nil {t : Located} (proper : ending.IsProper)
    (h : front? ending [] = some t) : t.token = .eof := by
  cases ending with
  | finished endMark => cases h; exact proper
  | failed error => cases h

theorem Reads.unique {reader : Reader α} {v v' : α} {rest' : List Located}
    (h : Reads reader ending ts v rest) (h' : Reads reader ending ts v' rest') :
    v = v' ∧ rest = rest' := by
  unfold Reads at h h'
  rw [h] at h'
  cases h'
  exact ⟨rfl, rfl⟩

/-! ### Ways to put readers together -/

@[simp] theorem reads_pure_iff {v w : α} :
    Reads (pure v) ending ts w rest ↔ v = w ∧ ts = rest := by
  rw [Reads, run_pure]
  simp

@[simp] theorem reads_bind_iff {reader : Reader α} {f : α → Reader β} {w : β} :
    Reads (reader >>= f) ending ts w rest ↔
      ∃ v mid, Reads reader ending ts v mid ∧ Reads (f v) ending mid w rest := by
  simp only [Reads, run_bind]
  cases (reader.run ending).run ts with
  | error error => simp
  | ok result =>
    obtain ⟨v, mid⟩ := result
    simp only [Except.ok.injEq, Prod.mk.injEq]
    constructor
    · intro h
      exact ⟨v, mid, ⟨rfl, rfl⟩, h⟩
    · rintro ⟨_, _, ⟨rfl, rfl⟩, h⟩
      exact h

@[simp] theorem reads_map_iff {reader : Reader α} {f : α → β} {w : β} :
    Reads (f <$> reader) ending ts w rest ↔ ∃ v, Reads reader ending ts v rest ∧ f v = w := by
  rw [← bind_pure_comp]
  simp only [reads_bind_iff, reads_pure_iff]
  constructor
  · rintro ⟨v, _, reads, same, rfl⟩
    exact ⟨v, reads, same⟩
  · rintro ⟨v, reads, same⟩
    exact ⟨v, rest, reads, same, rfl⟩

@[simp] theorem reads_discard_iff {reader : Reader α} {w : Unit} :
    Reads (discard reader) ending ts w rest ↔ ∃ v, Reads reader ending ts v rest := by
  have same : discard reader = (fun _ => ()) <$> reader := rfl
  simp [same]

@[simp] theorem not_reads_throw {error : ReadError} {v : α} :
    ¬ Reads (throw error : Reader α) ending ts v rest := by
  rw [Reads, run_throw]
  exact nofun

@[simp] theorem not_reads_unexpected {t : Located} {expected : Expectation} {v : α} :
    ¬ Reads (unexpected t expected) ending ts v rest :=
  not_reads_throw

@[simp] theorem reads_accept_iff {position : Position} {outcome : Except Violation α} {v : α} :
    Reads (accept position outcome) ending ts v rest ↔ outcome = .ok v ∧ ts = rest := by
  cases outcome <;> simp [accept]

/-! ### Basic readers -/

@[simp] theorem reads_peek_iff {t : Located} :
    Reads peek ending ts t rest ↔ front? ending ts = some t ∧ ts = rest := by
  cases ts with
  | cons t' ts => simp [Reads, run_peek_cons]
  | nil =>
    cases ending with
    | finished endMark =>
      change Except.ok (endMark, []) = Except.ok (t, rest) ↔ _
      simp [front?]
    | failed error =>
      change Except.error _ = Except.ok (t, rest) ↔ _
      simp [front?]

theorem reads_peek_bind_iff {f : Located → Reader α} {t : Located} {v : α} :
    Reads (peek >>= f) ending (t :: ts) v rest ↔ Reads (f t) ending (t :: ts) v rest := by
  simp only [reads_bind_iff, reads_peek_iff]
  constructor
  · rintro ⟨_, _, ⟨seen, rfl⟩, reads⟩
    cases seen
    exact reads
  · intro reads
    exact ⟨t, _, ⟨rfl, rfl⟩, reads⟩

@[simp] theorem reads_next_iff {t : Located} :
    Reads next ending ts t rest ↔ front? ending ts = some t ∧ ts.tail = rest := by
  have tail {ts rest : List Located} {u : PUnit} :
      Reads (modify List.tail : Reader PUnit) ending ts u rest ↔ ts.tail = rest := by
    change Except.ok (PUnit.unit, ts.tail) = Except.ok (u, rest) ↔ _
    simp
  simp only [next, reads_bind_iff, reads_peek_iff, tail, reads_pure_iff]
  constructor
  · rintro ⟨t', _, ⟨seen, rfl⟩, _, _, rfl, rfl, rfl⟩
    exact ⟨seen, rfl⟩
  · rintro ⟨seen, rfl⟩
    exact ⟨t, ts, ⟨seen, rfl⟩, ⟨⟩, _, rfl, rfl, rfl⟩

/-- The next token is taken if it is not the end. -/
theorem reads_next_cons_iff {t : Located} (proper : ending.IsProper) (more : t.token ≠ .eof) :
    Reads next ending ts t rest ↔ ts = t :: rest := by
  rw [reads_next_iff]
  constructor
  · rintro ⟨seen, rfl⟩
    exact eq_cons_of_front? proper seen more
  · rintro rfl
    exact ⟨rfl, rfl⟩

/-- A reader that takes the next token if it passes a check; the end of the text does not. -/
theorem reads_next_check_iff {f : Located → Reader β} {ok : Located → Prop} {w : β}
    (proper : ending.IsProper) (refuses : ∀ t, t.token = .eof → ¬ ok t)
    (check : ∀ t mid, Reads (f t) ending mid w rest ↔ ok t ∧ mid = rest) :
    Reads (next >>= f) ending ts w rest ↔ ∃ t, ts = t :: rest ∧ ok t := by
  rw [reads_bind_iff]
  constructor
  · rintro ⟨t, mid, taken, reads⟩
    obtain ⟨passes, rfl⟩ := (check t mid).mp reads
    have more : t.token ≠ .eof := fun h => refuses t h passes
    exact ⟨t, (reads_next_cons_iff proper more).mp taken, passes⟩
  · rintro ⟨t, rfl, passes⟩
    exact ⟨t, rest, by simp, (check t rest).mpr ⟨passes, rfl⟩⟩

/-- A certain token comes first, whatever its documentation. -/
theorem exists_takes_iff {token : Token} :
    (∃ d, Takes ts [⟨token, d⟩] rest) ↔ ∃ t, ts = t :: rest ∧ t.token = token := by
  simp only [takes_single_iff]
  constructor
  · rintro ⟨d, t, rfl, word⟩
    exact ⟨t, rfl, congrArg Word.token word⟩
  · rintro ⟨t, rfl, rfl⟩
    exact ⟨docOf t, t, rfl, rfl⟩

theorem reads_expect_iff {m : Mark} {u : Unit} (proper : ending.IsProper) :
    Reads (expect m) ending ts u rest ↔ ∃ d, Takes ts [⟨.mark m, d⟩] rest := by
  rw [exists_takes_iff]
  refine reads_next_check_iff proper (fun t h => by simp [h]) fun t mid => ?_
  split <;> simp_all

theorem reads_expectKeyword_iff {k : Keyword} {t : Located} (proper : ending.IsProper) :
    Reads (expectKeyword k) ending ts t rest ↔ ts = t :: rest ∧ t.token = k.token := by
  have start : (ts = t :: rest ∧ t.token = k.token) ↔
      ∃ t', ts = t' :: rest ∧ t'.token = k.token ∧ t' = t := by
    constructor
    · rintro ⟨taken, same⟩
      exact ⟨t, taken, same, rfl⟩
    · rintro ⟨_, taken, same, rfl⟩
      exact ⟨taken, same⟩
  rw [start]
  refine reads_next_check_iff proper (fun t h => by simp [h, Keyword.token]) fun t' mid => ?_
  simp only [Token.keyword?_eq_some_iff]
  split <;> simp_all

theorem reads_ident_iff {expected : Expectation} {name : String} (proper : ending.IsProper) :
    Reads (ident expected) ending ts name rest ↔ ∃ d, Takes ts [⟨.ident name, d⟩] rest := by
  rw [exists_takes_iff]
  refine reads_next_check_iff proper (fun t h => by simp [h]) fun t mid => ?_
  split <;> simp_all

theorem reads_plainName_iff {expected : Expectation} {name : String} (proper : ending.IsProper) :
    Reads (plainName expected) ending ts name rest ↔
      isPlainName name = true ∧ ∃ d, Takes ts [⟨.ident name, d⟩] rest := by
  rw [exists_takes_iff]
  have both : (isPlainName name = true ∧ ∃ t, ts = t :: rest ∧ t.token = .ident name) ↔
      ∃ t, ts = t :: rest ∧ isPlainName name = true ∧ t.token = .ident name := by
    constructor
    · rintro ⟨plain, t, taken, same⟩
      exact ⟨t, taken, plain, same⟩
    · rintro ⟨t, taken, plain, same⟩
      exact ⟨plain, t, taken, same⟩
  rw [both]
  refine reads_next_check_iff proper (fun t h => by simp [h]) fun t mid => ?_
  split
  · split <;> grind [reads_pure_iff, not_reads_unexpected]
  · simp_all

theorem reads_int_iff {expected : Expectation} {n : Int} (proper : ending.IsProper) :
    Reads (int expected) ending ts n rest ↔ ∃ d, Takes ts [⟨.int n, d⟩] rest := by
  rw [exists_takes_iff]
  refine reads_next_check_iff proper (fun t h => by simp [h]) fun t mid => ?_
  split <;> simp_all

/-- Taking the next token if it is a certain one. -/
private theorem reads_eatToken_iff {token : Token} {fits : Located → Prop} [DecidablePred fits]
    {b : Bool} (proper : ending.IsProper) (more : token ≠ .eof)
    (same : ∀ t, fits t ↔ t.token = token) :
    Reads (do
        let t ← peek
        if fits t then
          discard next
          return true
        else return false) ending ts b rest ↔
      (b = true ∧ ∃ d, Takes ts [⟨token, d⟩] rest) ∨
        (b = false ∧ ts = rest ∧ Sees (· ≠ token) ending ts) := by
  rw [exists_takes_iff]
  simp only [reads_bind_iff, reads_peek_iff]
  constructor
  · rintro ⟨t, _, ⟨seen, rfl⟩, reads⟩
    split at reads
    next fit =>
      have found := (same t).mp fit
      -- The end mark is no such token, so what was seen stands in the text and can be taken.
      have whole := eq_cons_of_front? proper seen (found ▸ more)
      rw [whole] at reads
      simp only [reads_bind_iff, reads_discard_iff, reads_next_iff, reads_pure_iff] at reads
      obtain ⟨_, _, ⟨_, _, rfl⟩, rfl, rfl⟩ := reads
      exact .inl ⟨rfl, t, whole, found⟩
    next unfit =>
      obtain ⟨rfl, rfl⟩ := reads_pure_iff.mp reads
      exact .inr ⟨rfl, rfl, t, seen, fun found => unfit ((same t).mpr found)⟩
  · rintro (⟨rfl, t, rfl, found⟩ | ⟨rfl, rfl, t, seen, other⟩)
    · exact ⟨t, t :: rest, ⟨rfl, rfl⟩, by simp [(same t).mpr found]⟩
    · exact ⟨t, ts, ⟨seen, rfl⟩, by simp [same, other]⟩

/-- A mark is taken if it is there; otherwise some other token or the end is. -/
theorem reads_eat_iff {m : Mark} {b : Bool} (proper : ending.IsProper) :
    Reads (eat m) ending ts b rest ↔
      (b = true ∧ ∃ d, Takes ts [⟨.mark m, d⟩] rest) ∨
        (b = false ∧ ts = rest ∧ Sees (· ≠ .mark m) ending ts) :=
  reads_eatToken_iff proper (by simp) fun _ => Iff.rfl

theorem reads_eatKeyword_iff {k : Keyword} {b : Bool} (proper : ending.IsProper) :
    Reads (eatKeyword k) ending ts b rest ↔
      (b = true ∧ ∃ d, Takes ts [⟨k.token, d⟩] rest) ∨
        (b = false ∧ ts = rest ∧ Sees (· ≠ k.token) ending ts) :=
  reads_eatToken_iff proper (by simp [Keyword.token]) fun _ => Token.keyword?_eq_some_iff

/-- What follows depends on whether the next token is a certain one. -/
private theorem reads_branch_iff {eater : Reader Bool} {token : Token} {yes no : Reader α} {v : α}
    (spec : ∀ b mid, Reads eater ending ts b mid ↔
      (b = true ∧ ∃ d, Takes ts [⟨token, d⟩] mid) ∨
        (b = false ∧ ts = mid ∧ Sees (· ≠ token) ending ts)) :
    Reads (eater >>= fun b => if b = true then yes else no) ending ts v rest ↔
      (∃ d mid, Takes ts [⟨token, d⟩] mid ∧ Reads yes ending mid v rest) ∨
        (Sees (· ≠ token) ending ts ∧ Reads no ending ts v rest) := by
  simp only [reads_bind_iff, spec]
  constructor
  · rintro ⟨b, mid, ⟨rfl, d, takes⟩ | ⟨rfl, rfl, sees⟩, reads⟩
    · exact .inl ⟨d, mid, takes, by simpa using reads⟩
    · exact .inr ⟨sees, by simpa using reads⟩
  · rintro (⟨d, mid, takes, reads⟩ | ⟨sees, reads⟩)
    · exact ⟨true, mid, .inl ⟨rfl, d, takes⟩, by simpa using reads⟩
    · exact ⟨false, ts, .inr ⟨rfl, rfl, sees⟩, by simpa using reads⟩

theorem reads_ifEat_iff {m : Mark} {yes no : Reader α} {v : α} (proper : ending.IsProper) :
    Reads (eat m >>= fun b => if b = true then yes else no) ending ts v rest ↔
      (∃ d mid, Takes ts [⟨.mark m, d⟩] mid ∧ Reads yes ending mid v rest) ∨
        (Sees (· ≠ .mark m) ending ts ∧ Reads no ending ts v rest) :=
  reads_branch_iff fun _ _ => reads_eat_iff proper

theorem reads_ifKeyword_iff {k : Keyword} {yes no : Reader α} {v : α} (proper : ending.IsProper) :
    Reads (eatKeyword k >>= fun b => if b = true then yes else no) ending ts v rest ↔
      (∃ d mid, Takes ts [⟨k.token, d⟩] mid ∧ Reads yes ending mid v rest) ∨
        (Sees (· ≠ k.token) ending ts ∧ Reads no ending ts v rest) :=
  reads_branch_iff fun _ _ => reads_eatKeyword_iff proper

/-! ### Readers of phrases -/

/-- A reader accepts the phrases of one kind, given what stands behind them: whatever it reads is
such a phrase, and such a phrase is read if a token that fits follows. -/
structure Accepts (reader : Reader α) (P : List Word → α → Prop) (follow : Token → Prop)
    (ending : Ending) : Prop where
  sound {ts rest : List Located} {v : α} :
    Reads reader ending ts v rest → ∃ ws, Takes ts ws rest ∧ P ws v
  complete {ts rest : List Located} {ws : List Word} {v : α} :
    Takes ts ws rest → P ws v → Sees follow ending rest → Reads reader ending ts v rest

theorem Sees.mono {p q : Token → Prop} (h : Sees p ending ts) (imp : ∀ t, p t → q t) :
    Sees q ending ts :=
  h.imp fun _ seen => ⟨seen.1, imp _ seen.2⟩

theorem Sees.reads_peek_bind {p : Token → Prop} {f : Located → Reader α} {v : α}
    (h : Sees p ending ts) (later : ∀ t, p t.token → Reads (f t) ending ts v rest) :
    Reads (peek >>= f) ending ts v rest := by
  obtain ⟨t, seen, fits⟩ := h
  exact reads_bind_iff.mpr ⟨t, ts, reads_peek_iff.mpr ⟨seen, rfl⟩, later t fits⟩

theorem Takes.sees {p : Token → Prop} {w : Word} {ws : List Word}
    (h : Takes ts (w :: ws) rest) (holds : p w.token) : Sees p ending ts := by
  obtain ⟨t, mid, rfl, rfl, _⟩ := takes_cons_iff.mp h
  exact ⟨t, rfl, holds⟩

/-! ### Repetition -/

section Many

variable {item : Reader (Option α)} {v : α} {vs : List α}

theorem many_of_error {e : ReadError} (failed : (item.run ending).run ts = .error e) :
    many item ending ts = .error e := by
  rw [many.eq_def, failed]

theorem many_of_reads (reads : Reads item ending ts (some v) rest)
    (progress : rest.length < ts.length) :
    many item ending ts = (many item ending rest).map fun result => (v :: result.1, result.2) := by
  have run : (item.run ending).run ts = .ok (some v, rest) := reads
  rw [many.eq_def, run]
  simp only [if_pos progress]
  cases many item ending rest <;> rfl

theorem reads_many_nil_iff :
    Reads (many item) ending ts [] rest ↔ Reads item ending ts none rest := by
  change many item ending ts = .ok ([], rest) ↔ (item.run ending).run ts = .ok (none, rest)
  rw [many.eq_def]
  split
  next found => simp [found]
  next found => simp [found]
  next found =>
    rw [found]
    split
    · split <;> simp
    · simp

theorem reads_many_cons_of {mid : List Located} (first : Reads item ending ts (some v) mid)
    (progress : mid.length < ts.length) (more : Reads (many item) ending mid vs rest) :
    Reads (many item) ending ts (v :: vs) rest := by
  change many item ending ts = .ok (v :: vs, rest)
  change many item ending mid = .ok (vs, rest) at more
  rw [many_of_reads first progress, more]
  rfl

theorem exists_of_reads_many_cons
    (progress : ∀ mid, Reads item ending ts (some v) mid → mid.length < ts.length)
    (h : Reads (many item) ending ts (v :: vs) rest) :
    ∃ mid, Reads item ending ts (some v) mid ∧ Reads (many item) ending mid vs rest := by
  change many item ending ts = .ok (v :: vs, rest) at h
  rw [many.eq_def] at h
  split at h
  · cases h
  · cases h
  next v' mid found =>
    split at h
    next =>
      split at h
      · cases h
      next more =>
        cases h
        exact ⟨mid, found, more⟩
    next stuck =>
      cases h
      exact absurd (progress _ found) stuck

/-- What is read are phrases in a row, up to where there is no further one. -/
theorem exists_of_reads_many (P : List Word → α → Prop) (stop : List Located → List Located → Prop)
    (sound : ∀ {ts v rest}, Reads item ending ts (some v) rest → ∃ ws, Takes ts ws rest ∧ P ws v)
    (nonempty : ∀ {ws v}, P ws v → ws ≠ [])
    (none : ∀ {ts rest}, Reads item ending ts none rest → stop ts rest)
    (h : Reads (many item) ending ts vs rest) :
    ∃ ws mid, Takes ts ws mid ∧ IsSequence P ws vs ∧ stop mid rest := by
  induction vs generalizing ts with
  | nil => exact ⟨[], ts, takes_nil_iff.mpr rfl, .nil, none (reads_many_nil_iff.mp h)⟩
  | cons v vs ih =>
    have progress : ∀ mid, Reads item ending ts (some v) mid → mid.length < ts.length := by
      intro mid reads
      obtain ⟨ws, takes, phrase⟩ := sound reads
      exact takes.length_lt (nonempty phrase)
    obtain ⟨mid, reads, more⟩ := exists_of_reads_many_cons progress h
    obtain ⟨ws, takes, phrase⟩ := sound reads
    obtain ⟨ws', mid', takes', row, stops⟩ := ih more
    exact ⟨ws ++ ws', mid', takes.trans takes', .cons phrase row, stops⟩

/-- Phrases in a row are read if each begins with a token that fits behind the one before it and
such a token also stands behind the last one. -/
theorem reads_many_of (P : List Word → α → Prop) (follow : Token → Prop) {mid : List Located}
    {ws : List Word}
    (complete : ∀ {ts v rest ws}, Takes ts ws rest → P ws v → Sees follow ending rest →
      Reads item ending ts (some v) rest)
    (first : ∀ {ws v}, P ws v → ∃ w ws', ws = w :: ws' ∧ follow w.token)
    (takes : Takes ts ws mid) (row : IsSequence P ws vs) (fits : Sees follow ending mid)
    (stops : Reads item ending mid none rest) :
    Reads (many item) ending ts vs rest := by
  induction row generalizing ts with
  | nil => exact reads_many_nil_iff.mpr (takes_nil_iff.mp takes ▸ stops)
  | cons phrase row ih =>
    obtain ⟨behind, takes, takes'⟩ := takes_append_iff.mp takes
    -- Behind a phrase stands the next one, and behind the last one what was asked for.
    have next : Sees follow ending behind := by
      cases row with
      | nil => exact takes_nil_iff.mp takes' ▸ fits
      | cons phrase' _ =>
        obtain ⟨w, ws', rfl, fit⟩ := first phrase'
        exact Takes.sees takes' fit
    obtain ⟨w, ws', rfl, _⟩ := first phrase
    exact reads_many_cons_of (complete takes phrase next) (takes.length_lt (by simp)) (ih takes')

/-- Where the next token alone says whether there is a further phrase, all phrases in a row are
read. -/
theorem reads_many_iff {P : List Word → α → Prop} {stop : Token → Prop}
    (taken : ∀ {ts v rest}, Reads item ending ts (some v) rest ↔ ∃ ws, Takes ts ws rest ∧ P ws v)
    (left : ∀ {ts rest}, Reads item ending ts none rest ↔ ts = rest ∧ Sees stop ending ts)
    (nonempty : ∀ {ws v}, P ws v → ws ≠ []) :
    Reads (many item) ending ts vs rest ↔
      (∃ ws, Takes ts ws rest ∧ IsSequence P ws vs) ∧ Sees stop ending rest := by
  constructor
  · intro h
    obtain ⟨ws, mid, takes, row, rfl, sees⟩ := exists_of_reads_many P
      (fun ts rest => ts = rest ∧ Sees stop ending ts) taken.mp nonempty left.mp h
    exact ⟨⟨ws, takes, row⟩, sees⟩
  · rintro ⟨⟨ws, takes, row⟩, sees⟩
    refine reads_many_of P (fun _ => True) (fun takes phrase _ => taken.mpr ⟨_, takes, phrase⟩)
      (fun {ws v} phrase => ?_) takes row (sees.mono fun _ _ => trivial) (left.mpr ⟨rfl, sees⟩)
    obtain ⟨w, ws', rfl⟩ := List.exists_cons_of_ne_nil (nonempty phrase)
    exact ⟨w, ws', rfl, trivial⟩

/-- Items that are changed one by one are changed all at once. -/
theorem many_map {g : α → β} {item : Reader (Option α)} (ending : Ending) (ts : List Located) :
    many (Option.map g <$> item) ending ts =
      (many item ending ts).map fun result => (result.1.map g, result.2) := by
  have mapped (ts : List Located) : ((Option.map g <$> item).run ending).run ts =
      ((item.run ending).run ts).map fun result => (result.1.map g, result.2) := by
    rw [← bind_pure_comp, run_bind]
    cases (item.run ending).run ts <;> rfl
  fun_induction many item ending ts with
  | case1 ts error found =>
    rw [many.eq_def, mapped, found]
    rfl
  | case2 ts rest found =>
    rw [many.eq_def, mapped, found]
    rfl
  | case3 ts v rest found progress error failed ih =>
    rw [many.eq_def, mapped, found]
    simp only [Except.map, Option.map_some, if_pos progress, ih, failed]
  | case4 ts v rest found progress vs after more ih =>
    rw [many.eq_def, mapped, found]
    simp only [Except.map, Option.map_some, if_pos progress, ih, more, List.map_cons]
  | case5 ts v rest found stuck =>
    rw [many.eq_def, mapped, found]
    simp only [Except.map, Option.map_some, if_neg stuck, List.map_cons, List.map_nil]

theorem reads_many_map_iff {g : α → β} {ws : List β} :
    Reads (many (Option.map g <$> item)) ending ts ws rest ↔
      ∃ vs, Reads (many item) ending ts vs rest ∧ vs.map g = ws := by
  change many (Option.map g <$> item) ending ts = .ok (ws, rest) ↔
    ∃ vs, many item ending ts = .ok (vs, rest) ∧ vs.map g = ws
  rw [many_map]
  cases many item ending ts with
  | error error => simp [Except.map]
  | ok result =>
    obtain ⟨vs, after⟩ := result
    simp only [Except.map, Except.ok.injEq, Prod.mk.injEq]
    constructor
    · rintro ⟨same, rfl⟩
      exact ⟨vs, ⟨rfl, rfl⟩, same⟩
    · rintro ⟨_, ⟨rfl, rfl⟩, same⟩
      exact ⟨same, rfl⟩

/-- A single word whose token is picked. -/
def IsPicked (pick : Token → Option α) (ws : List Word) (v : α) : Prop :=
  ∃ w, ws = [w] ∧ pick w.token = some v

/-- Taking the next token as long as it is one of those that are picked. -/
theorem reads_manyPicked_iff (pick : Token → Option α) {f : Located → Reader (Option α)}
    (proper : ending.IsProper) (refuses : pick .eof = none)
    (same : ∀ t, f t =
      match pick t.token with
      | some v => discard next >>= fun _ => pure (some v)
      | none => pure none) :
    Reads (many (peek >>= f)) ending ts vs rest ↔
      (∃ ws, Takes ts ws rest ∧ IsSequence (IsPicked pick) ws vs) ∧
        Sees (fun t => pick t = none) ending rest := by
  have taken {ts : List Located} {v : α} {rest : List Located} :
      Reads (peek >>= f) ending ts (some v) rest ↔
        ∃ t, ts = t :: rest ∧ pick t.token = some v := by
    simp only [reads_bind_iff, reads_peek_iff, same]
    constructor
    · rintro ⟨t, _, ⟨seen, rfl⟩, reads⟩
      split at reads
      next found =>
        have more : t.token ≠ .eof := fun h => by simp [h, refuses] at found
        have whole := eq_cons_of_front? proper seen more
        rw [whole] at reads
        simp only [reads_bind_iff, reads_discard_iff, reads_next_iff, reads_pure_iff] at reads
        obtain ⟨_, _, ⟨_, _, rfl⟩, here, rfl⟩ := reads
        cases here
        exact ⟨t, whole, found⟩
      next => cases (reads_pure_iff.mp reads).1
    · rintro ⟨t, rfl, found⟩
      exact ⟨t, t :: rest, ⟨rfl, rfl⟩, by simp [found]⟩
  have left {ts rest : List Located} :
      Reads (peek >>= f) ending ts none rest ↔
        ts = rest ∧ Sees (fun t => pick t = none) ending ts := by
    simp only [reads_bind_iff, reads_peek_iff, same]
    constructor
    · rintro ⟨t, _, ⟨seen, rfl⟩, reads⟩
      split at reads
      next => simp at reads
      next unfit => exact ⟨(reads_pure_iff.mp reads).2, t, seen, unfit⟩
    · rintro ⟨rfl, t, seen, unfit⟩
      exact ⟨t, ts, ⟨seen, rfl⟩, by simp [unfit]⟩
  refine reads_many_iff (fun {ts v rest} => ?_) left fun phrase => ?_
  · rw [taken]
    constructor
    · rintro ⟨t, rfl, found⟩
      exact ⟨[t.word], takes_single_iff.mpr ⟨t, rfl, rfl⟩, t.word, rfl, found⟩
    · rintro ⟨_, takes, w, rfl, found⟩
      obtain ⟨t, rfl, rfl⟩ := takes_single_iff.mp takes
      exact ⟨t, rfl, found⟩
  · obtain ⟨w, rfl, _⟩ := phrase
    simp

end Many

/-- Items with commas between them, if a comma fits behind an item. -/
theorem accepts_commaSeparated {item : Reader α} {P : List Word → α → Prop}
    {follow : Token → Prop} (proper : ending.IsProper) (accepts : Accepts item P follow ending)
    (comma : follow (.mark .comma)) :
    Accepts (commaSeparated item) (IsCommaList P) (fun t => follow t ∧ t ≠ .mark .comma)
      ending where
  sound h := by
    simp only [commaSeparated, reads_bind_iff, reads_pure_iff] at h
    obtain ⟨v, mid, first, vs, _, more, rfl, rfl⟩ := h
    obtain ⟨ws, takes, phrase⟩ := accepts.sound first
    obtain ⟨ws', _, takes', row, rfl⟩ := exists_of_reads_many (IsCommaList.Behind P)
      (fun ts rest => ts = rest) (fun reads => by
        simp only [reads_ifEat_iff proper, reads_bind_iff, reads_pure_iff] at reads
        obtain ⟨d, mid, takes, v, _, reads, same, rfl⟩ | ⟨_, same, _⟩ := reads
        · cases same
          obtain ⟨ws, takes', phrase⟩ := accepts.sound reads
          exact ⟨_, takes.trans takes', .intro phrase⟩
        · cases same)
      (fun phrase => by cases phrase; simp)
      (fun reads => by
        simp only [reads_ifEat_iff proper, reads_bind_iff, reads_pure_iff] at reads
        obtain ⟨_, _, _, _, _, _, same, _⟩ | ⟨_, _, same⟩ := reads
        · cases same
        · exact same) more
    exact ⟨ws ++ ws', takes.trans takes', IsCommaList.cons_iff.mpr ⟨ws, ws', rfl, phrase, row⟩⟩
  complete takes list fits := by
    rename_i ts rest ws vs
    cases vs with
    | nil => exact absurd rfl list.ne_nil
    | cons v vs =>
      obtain ⟨first, more, rfl, phrase, row⟩ := IsCommaList.cons_iff.mp list
      obtain ⟨mid, takes, takes'⟩ := takes_append_iff.mp takes
      have follows : Sees follow ending rest := fits.mono fun _ both => both.1
      have other : Sees (· ≠ .mark .comma) ending rest := fits.mono fun _ both => both.2
      -- Behind the first item stands a comma or, if it is the only one, what follows the list.
      have next : Sees follow ending mid := by
        cases row with
        | nil => exact takes_nil_iff.mp takes' ▸ follows
        | cons behind _ =>
          cases behind with
          | intro _ => exact Takes.sees takes' comma
      simp only [commaSeparated, reads_bind_iff, reads_pure_iff]
      refine ⟨v, mid, accepts.complete takes phrase next, vs, rest, ?_, rfl, rfl⟩
      refine reads_many_of (IsCommaList.Behind P) follow ?_ ?_ takes' row follows ?_
      · intro ts v rest ws takes behind fits
        cases behind with
        | intro phrase =>
          obtain ⟨mid, taken, takes⟩ := takes_head_iff.mp takes
          rw [reads_ifEat_iff proper]
          refine .inl ⟨_, mid, taken, ?_⟩
          simp only [reads_bind_iff, reads_pure_iff]
          exact ⟨v, rest, accepts.complete takes phrase fits, rfl, rfl⟩
      · intro ws v behind
        cases behind with
        | intro _ => exact ⟨_, _, rfl, comma⟩
      · rw [reads_ifEat_iff proper]
        exact .inr ⟨other, by simp⟩

end Reader

end ProtoSchema
