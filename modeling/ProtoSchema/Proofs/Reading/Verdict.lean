import ProtoSchema.Proofs.Grammar.Verdict
import ProtoSchema.Proofs.Reading.Parse

/-!
# Which broken rule is reported

A reader that reads a phrase with verdicts fails at the first declaration, in the order in which
they end, that breaks a rule; it reads what the phrase says if there is none. `Yields` says so; there
is a rule for each way to put readers together.
-/

namespace ProtoSchema

open Grammar

/-! ### Verdicts and tokens -/

namespace Grammar.Judged

variable {α β γ : Type} {j : Judged α} {ts mid rest : List Located}

/-- All declarations that are judged end within the tokens in front of `rest`, in order and each at
a token of its own. -/
def Spans (j : Judged α) (ts rest : List Located) : Prop :=
  ∃ used, ts = used ++ rest ∧ (j.verdicts.map Verdict.last).Sublist used

/-- The same where there is such a token. -/
def Fills (j : Judged α) (ts rest : List Located) : Prop :=
  ∃ t used, ts = t :: (used ++ rest) ∧ (j.verdicts.map Verdict.last).Sublist (t :: used)

theorem map_id (j : Judged α) : j.map id = j := by
  simp only [map, Option.map_id]
  rfl

theorem map_map (g : α → β) (h : β → γ) (j : Judged α) : (j.map g).map h = j.map (h ∘ g) := by
  simp only [map, Option.map_map]

theorem map_map₂ {δ : Type} (g : α → β → γ) (h : γ → δ) (j : Judged α) (k : Judged β) :
    (map₂ g j k).map h = map₂ (fun v w => h (g v w)) j k := by
  obtain ⟨verdicts, value⟩ := j
  cases value with
  | none => rfl
  | some v => simp only [map₂, map, Option.bind_some, Option.map_map]; rfl

theorem spans_plain (v : α) : (plain v).Spans rest rest :=
  ⟨[], rfl, List.Sublist.refl []⟩

theorem Fills.spans (h : j.Fills ts rest) : j.Spans ts rest := by
  obtain ⟨t, used, rfl, inside⟩ := h
  exact ⟨t :: used, rfl, inside⟩

theorem Fills.exists_cons (h : j.Fills ts rest) : ∃ t ts', ts = t :: ts' := by
  obtain ⟨t, used, rfl, _⟩ := h
  exact ⟨t, _, rfl⟩

theorem Fills.length_lt (h : j.Fills ts rest) : rest.length < ts.length := by
  obtain ⟨t, used, rfl, _⟩ := h
  rw [List.length_cons, List.length_append]
  omega

theorem Spans.cons (h : j.Spans ts rest) (t : Located) : j.Fills (t :: ts) rest := by
  obtain ⟨used, rfl, inside⟩ := h
  exact ⟨t, used, rfl, inside.cons t⟩

theorem Spans.behind {ws : List Word} (h : j.Spans mid rest) (takes : Reader.Takes ts ws mid) :
    j.Spans ts rest := by
  obtain ⟨used, rfl, inside⟩ := h
  obtain ⟨used', rfl, _⟩ := takes
  exact ⟨used' ++ used, by simp, inside.trans (List.sublist_append_right used' used)⟩

theorem fills_of_takes {w : Word} {ws : List Word} (v : α)
    (takes : Reader.Takes ts (w :: ws) rest) : (plain v).Fills ts rest := by
  obtain ⟨t, mid, rfl, _, behind⟩ := Reader.takes_cons_iff.mp takes
  exact ((spans_plain v).behind behind).cons t

theorem Spans.map (h : j.Spans ts rest) (g : α → β) : (j.map g).Spans ts rest := h

theorem Spans.map₂ {k : Judged β} (h : j.Spans ts mid) (h' : k.Spans mid rest) (g : α → β → γ) :
    (map₂ g j k).Spans ts rest := by
  obtain ⟨used, rfl, inside⟩ := h
  obtain ⟨used', rfl, inside'⟩ := h'
  refine ⟨used ++ used', by simp, ?_⟩
  rw [Judged.map₂, List.map_append]
  exact inside.append inside'

theorem Fills.map₂ {k : Judged β} (h : j.Fills ts mid) (h' : k.Spans mid rest) (g : α → β → γ) :
    (map₂ g j k).Fills ts rest := by
  obtain ⟨t, used, rfl, inside⟩ := h
  obtain ⟨used', rfl, inside'⟩ := h'
  refine ⟨t, used ++ used', by simp, ?_⟩
  rw [Judged.map₂, List.map_append]
  exact inside.append inside'

theorem Spans.before {t : Located} (h : j.Spans ts (t :: rest)) : j.Spans ts rest := by
  obtain ⟨used, rfl, inside⟩ := h
  exact ⟨used ++ [t], by simp, inside.trans (List.sublist_append_left used [t])⟩

/-- The last token of a declaration is its end. -/
theorem Spans.declare {last : Located} (h : j.Spans ts (last :: rest)) (first : Located)
    (make : α → Except Violation β) : (j.declare first last make).Spans ts rest := by
  obtain ⟨used, rfl, inside⟩ := h
  refine ⟨used ++ [last], by simp, ?_⟩
  unfold Judged.declare
  split
  · exact inside.trans (List.sublist_append_left used [last])
  · rw [List.map_append]
    exact inside.append (List.Sublist.refl _)
  · rw [List.map_append]
    exact inside.append (List.Sublist.refl _)

/-- A declaration without others in it takes one token at least. -/
theorem fills_declare {first last : Located} {used : List Located} (make : α → Except Violation β)
    (v : α) (member : last ∈ first :: used) :
    ((plain v).declare first last make).Fills (first :: (used ++ rest)) rest := by
  refine ⟨first, used, rfl, ?_⟩
  simp only [Judged.declare, plain, Option.map_some]
  cases make v with
  | ok w => exact List.singleton_sublist.mpr member
  | error broken => exact List.singleton_sublist.mpr member

end Grammar.Judged

namespace Reader

variable {α β γ : Type} {ending : Ending} {ts mid rest : List Located}

/-! ### Outcomes -/

/-- What a reader does with a phrase and its verdicts. -/
inductive Yields (reader : Reader α) (ending : Ending) (ts : List Located) :
    Judged α → List Located → Prop
  | accepted {verdicts : List Verdict} {v : α} {rest : List Located} :
      (∀ verdict ∈ verdicts, verdict.broken = none) → Reads reader ending ts v rest →
        Yields reader ending ts ⟨verdicts, some v⟩ rest
  | rejected {before after : List Verdict} {verdict : Verdict} {broken : Violation}
      {rest : List Located} :
      (∀ verdict ∈ before, verdict.broken = none) → verdict.broken = some broken →
      (reader.run ending).run ts = .error (.violation broken verdict.first.position) →
        Yields reader ending ts ⟨before ++ verdict :: after, none⟩ rest

theorem yields_of_reads {reader : Reader α} {v : α} (h : Reads reader ending ts v rest) :
    Yields reader ending ts (.plain v) rest :=
  .accepted (by simp) h

theorem run_bind_of_error {reader : Reader α} {f : α → Reader β} {e : ReadError}
    (h : (reader.run ending).run ts = .error e) :
    ((reader >>= f).run ending).run ts = .error e := by
  rw [run_bind, h]

theorem run_bind_of_reads {reader : Reader α} {f : α → Reader β} {v : α}
    (h : Reads reader ending ts v mid) :
    ((reader >>= f).run ending).run ts = ((f v).run ending).run mid := by
  rw [run_bind, h]

/-- What is read first without verdicts does not matter. -/
theorem Yields.after {reader : Reader α} {f : α → Reader β} {v : α} {j : Judged β}
    (later : Yields (f v) ending mid j rest) (h : Reads reader ending ts v mid) :
    Yields (reader >>= f) ending ts j rest := by
  cases later with
  | accepted sound reads => exact .accepted sound (reads_bind_iff.mpr ⟨v, mid, h, reads⟩)
  | rejected sound broken failed =>
    exact .rejected sound broken ((run_bind_of_reads h).trans failed)

/-- What is read behind a phrase adds its verdicts, if there was no broken rule before. -/
theorem Yields.bind {reader : Reader α} {f : α → Reader β} {j : Judged α} {k : Judged β}
    (h : Yields reader ending ts j mid)
    (stops : j.value = none → ∃ more, k = ⟨j.verdicts ++ more, none⟩)
    (later : ∀ v, j.value = some v →
      ∃ k', Yields (f v) ending mid k' rest ∧ k = ⟨j.verdicts ++ k'.verdicts, k'.value⟩) :
    Yields (reader >>= f) ending ts k rest := by
  cases h with
  | accepted sound reads =>
    obtain ⟨k', yields, rfl⟩ := later _ rfl
    -- Nothing was broken so far, so it is up to what is read behind the phrase.
    cases yields with
    | accepted sound' reads' =>
      refine .accepted ?_ (reads_bind_iff.mpr ⟨_, mid, reads, reads'⟩)
      exact List.forall_mem_append.mpr ⟨sound, sound'⟩
    | rejected sound' broken failed =>
      rw [← List.append_assoc]
      refine .rejected ?_ broken ((run_bind_of_reads reads).trans failed)
      exact List.forall_mem_append.mpr ⟨sound, sound'⟩
  | rejected sound broken failed =>
    -- What stands behind a failure is not read, but the verdicts on it are there.
    obtain ⟨more, rfl⟩ := stops rfl
    rw [List.append_assoc, List.cons_append]
    exact .rejected sound broken (run_bind_of_error failed)

/-- What is read at the end of a phrase without verdicts. -/
theorem Yields.finish {reader : Reader α} {f : α → Reader β} {g : α → β} {j : Judged α}
    (h : Yields reader ending ts j mid) (later : ∀ v, Reads (f v) ending mid (g v) rest) :
    Yields (reader >>= f) ending ts (j.map g) rest := by
  refine h.bind (fun none => ⟨[], ?_⟩) fun v said => ⟨.plain (g v), yields_of_reads (later v), ?_⟩
  · rw [Judged.map, none, List.append_nil]
    rfl
  · rw [Judged.map, said]
    simp [Judged.plain]

theorem Yields.map {reader : Reader α} {j : Judged α} (h : Yields reader ending ts j rest)
    (g : α → β) : Yields (reader >>= fun v => pure (g v)) ending ts (j.map g) rest :=
  h.finish fun _ => reads_pure_iff.mpr ⟨rfl, rfl⟩

theorem Yields.map₂ {reader : Reader α} {f : α → Reader γ} {j : Judged α} {k : Judged β}
    {g : α → β → γ} (h : Yields reader ending ts j mid)
    (later : ∀ v, Yields (f v) ending mid (k.map (g v)) rest) :
    Yields (reader >>= f) ending ts (.map₂ g j k) rest := by
  refine h.bind (fun none => ⟨k.verdicts, ?_⟩) fun v said => ⟨k.map (g v), later v, ?_⟩
  · rw [Judged.map₂, none]
    rfl
  · rw [Judged.map₂, said]
    rfl

/-- A declaration is judged when all of it has been read. -/
theorem yields_accept (first last : Located) (make : α → Except Violation β) (v : α) :
    Yields (accept first.position (make v)) ending rest
      ((Judged.plain v).declare first last make) rest := by
  unfold Judged.declare
  simp only [Judged.plain, Option.map_some, List.nil_append]
  split
  next none => cases none
  next w made =>
    rw [Option.some.inj made]
    exact .accepted (by simp) (reads_accept_iff.mpr ⟨rfl, rfl⟩)
  next broken made =>
    rw [Option.some.inj made]
    exact @Yields.rejected _ _ _ _ [] [] ⟨first, last, some broken⟩ broken _ (by simp) rfl rfl

theorem Yields.declare {reader : Reader α} {f : α → Reader β} {j : Judged α}
    {first last : Located} {make : α → Except Violation β} (h : Yields reader ending ts j mid)
    (later : ∀ v, Yields (f v) ending mid ((Judged.plain v).declare first last make) rest) :
    Yields (reader >>= f) ending ts (j.declare first last make) rest := by
  refine h.bind (fun none => ⟨[], ?_⟩) fun v said => ⟨_, later v, ?_⟩
  · rw [Judged.declare, none, List.append_nil]
    rfl
  · unfold Judged.declare
    rw [said]
    simp only [Judged.plain, Option.map_some, List.nil_append]
    cases make v <;> rfl

/-! ### Rows -/

section Rows

variable {item : Reader (Option α)} {P : Phrase α}

/-- An item and those behind it. -/
private theorem Yields.cons {j : Judged α} {js : Judged (List α)}
    (h : Yields item ending ts (j.map some) mid) (progress : mid.length < ts.length)
    (later : Yields (many item) ending mid js rest) :
    Yields (many item) ending ts (.map₂ List.cons j js) rest := by
  obtain ⟨verdicts, value⟩ := j
  obtain ⟨verdicts', values⟩ := js
  cases value with
  | none =>
    change Yields item ending ts ⟨verdicts, none⟩ mid at h
    change Yields (many item) ending ts ⟨verdicts ++ verdicts', none⟩ rest
    cases h with
    | rejected sound broken failed =>
      rw [List.append_assoc, List.cons_append]
      exact .rejected sound broken (many_of_error failed)
  | some v =>
    change Yields item ending ts ⟨verdicts, some (some v)⟩ mid at h
    change Yields (many item) ending ts ⟨verdicts ++ verdicts', values.map (List.cons v)⟩ rest
    cases h with
    | accepted sound reads =>
      cases later with
      | accepted sound' reads' =>
        refine .accepted ?_ (reads_many_cons_of reads progress reads')
        exact List.forall_mem_append.mpr ⟨sound, sound'⟩
      | rejected sound' broken failed =>
        rw [← List.append_assoc]
        refine .rejected (List.forall_mem_append.mpr ⟨sound, sound'⟩) broken ?_
        change many item ending mid = .error _ at failed
        change many item ending ts = .error _
        rw [many_of_reads reads progress, failed]
        rfl

/-- All phrases in a row are read if nothing that could be read as another one stands behind. -/
theorem yields_many {js : Judged (List α)}
    (each : ∀ {ts rest j}, P ts j rest → Yields item ending ts (j.map some) rest)
    (fills : ∀ {ts rest j}, P ts j rest → j.Fills ts rest) (row : JudgesRow P ts js rest)
    (stops : Reads item ending rest none rest) :
    Yields (many item) ending ts js rest := by
  induction row with
  | nil => exact yields_of_reads (reads_many_nil_iff.mpr stops)
  | cons first _ ih => exact (each first).cons (fills first).length_lt (ih stops)

theorem spans_of_row {js : Judged (List α)}
    (fills : ∀ {ts rest j}, P ts j rest → j.Fills ts rest) (row : JudgesRow P ts js rest) :
    js.Spans ts rest := by
  induction row with
  | nil => exact Judged.spans_plain _
  | cons first _ ih => exact (fills first).spans.map₂ ih _

end Rows

/-! ### Steps -/

theorem Yields.peek {f : Located → Reader α} {t : Located} {j : Judged α}
    (h : Yields (f t) ending (t :: ts) j rest) : Yields (peek >>= f) ending (t :: ts) j rest :=
  h.after (reads_peek_iff.mpr ⟨rfl, rfl⟩)

theorem Yields.next {f : Located → Reader α} {t : Located} {j : Judged α}
    (h : Yields (f t) ending ts j rest) : Yields (next >>= f) ending (t :: ts) j rest :=
  h.after (reads_next_iff.mpr ⟨rfl, rfl⟩)

theorem Yields.expect {m : Mark} {d : String} {f : Unit → Reader α} {j : Judged α}
    (h : Yields (f ()) ending mid j rest) (proper : ending.IsProper)
    (takes : Takes ts [⟨.mark m, d⟩] mid) : Yields (expect m >>= f) ending ts j rest :=
  h.after ((reads_expect_iff proper).mpr ⟨d, takes⟩)

theorem Yields.ident {name d : String} {expected : Expectation} {f : String → Reader α}
    {j : Judged α} (h : Yields (f name) ending mid j rest) (proper : ending.IsProper)
    (takes : Takes ts [⟨.ident name, d⟩] mid) :
    Yields (ident expected >>= f) ending ts j rest :=
  h.after ((reads_ident_iff proper).mpr ⟨d, takes⟩)

theorem Yields.plainName {name d : String} {expected : Expectation} {f : String → Reader α}
    {j : Judged α} (h : Yields (f name) ending mid j rest) (proper : ending.IsProper)
    (plain : isPlainName name = true) (takes : Takes ts [⟨.ident name, d⟩] mid) :
    Yields (plainName expected >>= f) ending ts j rest :=
  h.after ((reads_plainName_iff proper).mpr ⟨plain, d, takes⟩)

theorem Yields.int {n : Int} {d : String} {expected : Expectation} {f : Int → Reader α}
    {j : Judged α} (h : Yields (f n) ending mid j rest) (proper : ending.IsProper)
    (takes : Takes ts [⟨.int n, d⟩] mid) : Yields (int expected >>= f) ending ts j rest :=
  h.after ((reads_int_iff proper).mpr ⟨d, takes⟩)

theorem Yields.expectKeyword {k : Keyword} {t : Located} {f : Located → Reader α} {j : Judged α}
    (h : Yields (f t) ending ts j rest) (proper : ending.IsProper) (word : t.token = k.token) :
    Yields (expectKeyword k >>= f) ending (t :: ts) j rest :=
  h.after ((reads_expectKeyword_iff proper).mpr ⟨rfl, word⟩)

/-- A mark that ends a phrase is no part of what it says. -/
theorem Yields.closed {m : Mark} {closed : Located} {reader : Reader α} {j : Judged α}
    (h : Yields reader ending ts j (closed :: rest)) (proper : ending.IsProper)
    (closes : closed.token = .mark m) :
    Yields (do
      let v ← reader
      Reader.expect m
      return v) ending ts j rest := by
  rw [← j.map_id]
  refine h.finish fun v => reads_bind_iff.mpr ⟨(), rest, ?_, reads_pure_iff.mpr ⟨rfl, rfl⟩⟩
  exact (reads_expect_iff proper).mpr (exists_takes_iff.mpr ⟨closed, rfl, closes⟩)

/-- A certain token is a word that is taken. -/
theorem takes_of_token {t : Located} {token : Token} (found : t.token = token) :
    Takes (t :: rest) [⟨token, docOf t⟩] rest :=
  takes_single_iff.mpr ⟨t, rfl, Located.word_eq_iff.mpr ⟨found, rfl⟩⟩

/-- What a statement is made of is read as the statement. -/
theorem Yields.statement {reader : Reader α} {j : Judged α} {of : α → β}
    (h : Yields reader ending ts j rest) :
    Yields (reader >>= fun v => pure (some (of v))) ending ts ((j.map of).map some) rest := by
  rw [Judged.map_map]
  exact h.map _

end Reader

namespace Reading

open Reader

variable {ending : Ending} {ts mid rest : List Located} {budget : Nat}

/-! ### Declarations with a number -/

theorem fills_of_numbered {α : Type} {isName : String → Prop} {start : Located}
    {make : String → Int → List Setting → Except Violation α} {j : Judged α}
    (h : JudgesNumbered budget isName start make ts j rest) : j.Fills ts rest := by
  cases h with
  | intro _ takes _ _ options _ =>
    obtain ⟨t, front, rfl, _, behind⟩ := takes_cons_iff.mp takes
    exact ((((Judged.spans_plain _).behind options).declare _ _).behind behind).cons t

theorem yields_numbered {α : Type} {isName : String → Prop} {start : Located}
    {make : String → Int → List Setting → Except Violation α} {j : Judged α}
    {expected expected' : Expectation} (proper : ending.IsProper)
    (plain : ∀ name, isName name → isPlainName name = true)
    (h : JudgesNumbered budget isName start make ts j rest) :
    Yields (do
      let name ← plainName expected
      expect .equals
      let number ← int expected'
      let options ← bracketOptions budget
      expect .semicolon
      accept start.position (make name number options)) ending ts j rest := by
  cases h with
  | @intro name _ _ _ number options _ closed _ _ _ isName takes brackets fits behind closes =>
    obtain ⟨_, takesName, takes⟩ := takes_head_iff.mp takes
    obtain ⟨_, equals, takesNumber⟩ := takes_head_iff.mp takes
    -- Behind the options, or in their place, stands the semicolon.
    have other : Sees (· ≠ .mark .openBracket) ending (closed :: rest) := by simp [closes]
    have readsOptions :=
      (accepts_bracketOptions budget proper).complete behind ⟨brackets, fits⟩ other
    refine Yields.plainName (Yields.expect (Yields.int ?_ proper takesNumber) proper equals) proper
      (plain name isName) takesName
    refine Yields.after ?_ readsOptions
    exact (yields_accept start closed (make name number) options).expect proper
      (takes_of_token closes)

theorem fills_of_field {j : Judged Field} (h : JudgesField budget ts j rest) :
    j.Fills ts rest := by
  cases h with
  | labelled _ _ takes behind => exact ((fills_of_numbered behind).spans.behind takes).cons _
  | map _ takes behind => exact ((fills_of_numbered behind).spans.behind takes).cons _

/-- A field whose first token is a label. -/
theorem yields_labelledField {start : Located} {k : Keyword} {label : Label} {j : Judged Field}
    (proper : ending.IsProper) (word : start.token = k.token)
    (isLabel : labelOfKeyword? k = some label) (h : JudgesField budget (start :: ts) j rest) :
    Yields (labelledField budget label) ending (start :: ts) j rest := by
  cases h with
  | labelled word' isLabel' takes behind =>
    obtain rfl := Keyword.token_injective (word.symm.trans word')
    obtain rfl := Option.some.inj (isLabel.symm.trans isLabel')
    refine Yields.next (Yields.ident ?_ proper takes)
    exact yields_numbered proper (fun _ plain => plain) behind
  -- The word that begins a map field is no label.
  | map word' =>
    exact absurd (Token.ident.inj (word.symm.trans word')) k.spelling_ne_map

/-- A field whose first token begins a map. -/
theorem yields_mapField {start : Located} {j : Judged Field} (proper : ending.IsProper)
    (word : start.token = .ident "map") (h : JudgesField budget (start :: ts) j rest) :
    Yields (mapField budget) ending (start :: ts) j rest := by
  cases h with
  | labelled word' =>
    exact absurd (Token.ident.inj (word'.symm.trans word)) (Keyword.spelling_ne_map _)
  | map _ takes behind =>
    obtain ⟨_, less, takes⟩ := takes_head_iff.mp takes
    obtain ⟨_, takesKey, takes⟩ := takes_head_iff.mp takes
    obtain ⟨_, comma, takes⟩ := takes_head_iff.mp takes
    obtain ⟨_, takesValue, greater⟩ := takes_head_iff.mp takes
    refine Yields.next (Yields.expect ?_ proper less)
    refine Yields.ident (Yields.expect ?_ proper comma) proper takesKey
    refine Yields.ident (Yields.expect ?_ proper greater) proper takesValue
    exact yields_numbered proper (fun _ plain => plain) behind

/-! ### Extensions -/

theorem fills_of_range {doc : String} {j : Judged ExtensionRange}
    (h : JudgesRange doc ts j rest) : j.Fills ts rest := by
  cases h with
  | intro => exact Judged.fills_declare _ _ List.getLastD_mem_cons

theorem yields_extensionRange {doc : String} {j : Judged ExtensionRange}
    (proper : ending.IsProper) (h : JudgesRange doc ts j rest) :
    Yields (extensionRange doc) ending ts j rest := by
  cases h with
  | @intro first last start behind used rest word phrase other =>
    have takes : Takes (used ++ behind :: rest) (used.map Located.word) (behind :: rest) :=
      ⟨used, rfl, rfl⟩
    have reads := (accepts_rangeEnd first proper).complete takes phrase (sees_cons_iff.mpr other)
    refine Yields.peek (Yields.int (Yields.after ?_ reads) proper (takes_of_token word))
    exact yields_accept start _ (ExtensionRange.make doc first) last

section CommaList

variable {α : Type} {item : Reader α} {P : Phrase α}

theorem fills_of_commaList {js : Judged (List α)}
    (fills : ∀ {ts rest j}, P ts j rest → j.Fills ts rest) (h : JudgesCommaList P ts js rest) :
    js.Fills ts rest := by
  cases h with
  | intro first row =>
    refine (fills first).map₂ (spans_of_row (fun phrase => ?_) row) List.cons
    cases phrase with
    | intro _ phrase => exact (fills phrase).spans.cons _

theorem yields_commaSeparated {js : Judged (List α)} (proper : ending.IsProper)
    (each : ∀ {ts rest j}, P ts j rest → Yields item ending ts j rest)
    (fills : ∀ {ts rest j}, P ts j rest → j.Fills ts rest) (h : JudgesCommaList P ts js rest)
    (other : Sees (· ≠ .mark .comma) ending rest) :
    Yields (commaSeparated item) ending ts js rest := by
  cases h with
  | intro first row =>
    refine (each first).map₂ fun v => Yields.map (yields_many ?_ ?_ row ?_) (List.cons v)
    · intro ts rest j phrase
      cases phrase with
      | @intro comma ts _ _ found phrase =>
        have eaten : Reads (eat .comma) ending (comma :: ts) true ts :=
          (reads_eat_iff proper).mpr (.inl ⟨rfl, _, takes_of_token found⟩)
        refine Yields.after ?_ eaten
        exact (each phrase).map some
    · intro ts rest j phrase
      cases phrase with
      | intro _ phrase => exact (fills phrase).spans.cons _
    · exact (reads_ifEat_iff proper).mpr (.inr ⟨other, reads_pure_iff.mpr ⟨rfl, rfl⟩⟩)

end CommaList

theorem fills_of_extensions {j : Judged (List ExtensionRange)} (h : JudgesExtensions ts j rest) :
    j.Fills ts rest := by
  cases h with
  | intro _ list _ => exact (fills_of_commaList fills_of_range list).spans.before.cons _

theorem yields_extensions {j : Judged (List ExtensionRange)} (proper : ending.IsProper)
    (h : JudgesExtensions ts j rest) : Yields extensions ending ts j rest := by
  cases h with
  | intro word list closes =>
    refine Yields.expectKeyword (Yields.closed ?_ proper closes) proper word
    exact yields_commaSeparated proper (yields_extensionRange proper) fills_of_range list
      (sees_cons_iff.mpr (by simp [closes]))

/-! ### Blocks -/

section Blocks

variable {α β : Type} {k : Keyword} {isName : String → Prop} {P : String → Phrase α}
  {make : Located → String → List α → Except Violation β} {j : Judged β}

theorem fills_of_block (fills : ∀ {name ts rest j}, P name ts j rest → j.Fills ts rest)
    (h : JudgesBlock k isName P make ts j rest) : j.Fills ts rest := by
  cases h with
  | intro _ _ takes _ row _ =>
    obtain ⟨t, _, rfl, _, same⟩ := takes_cons_iff.mp takes
    obtain rfl := takes_nil_iff.mp same
    exact ((((spans_of_row fills row).declare _ _).cons _).spans.cons t).spans.cons _

/-- A declaration with statements in braces is read if its statements are. -/
theorem yields_block {naming : Reader String} {item : String → Reader (Option α)}
    (proper : ending.IsProper)
    (named : ∀ {name d ts rest}, isName name → Takes ts [⟨.ident name, d⟩] rest →
      Reads naming ending ts name rest)
    (each : ∀ {name ts rest j}, P name ts j rest → Yields (item name) ending ts (j.map some) rest)
    (fills : ∀ {name ts rest j}, P name ts j rest → j.Fills ts rest)
    (stops : ∀ {name t ts}, t.token = .mark .closeBrace →
      Reads (item name) ending (t :: ts) none (t :: ts))
    (h : JudgesBlock k isName P make ts j rest) :
    Yields (do
      let start ← expectKeyword k
      let name ← naming
      expect .openBrace
      let statements ← many (item name)
      expect .closeBrace
      accept start.position (make start name statements)) ending ts j rest := by
  cases h with
  | @intro start opened closed name d ts mid rest j word isName takes opens row closes =>
    refine Yields.expectKeyword (Yields.after ?_ (named isName takes)) proper word
    refine Yields.expect ?_ proper (takes_of_token opens)
    refine Yields.declare (yields_many each fills row (stops closes)) fun v => ?_
    exact (yields_accept start closed (make start name) v).expect proper (takes_of_token closes)

end Blocks

/-! ### Extend blocks -/

theorem fills_of_extendStatement {j : Judged ExtendStatement}
    (h : JudgesExtendStatement budget ts j rest) : j.Fills ts rest := by
  cases h with
  | empty => exact (Judged.spans_plain _).cons _
  | field _ _ phrase => exact fills_of_field phrase

theorem yields_extendStatement {j : Judged ExtendStatement} (proper : ending.IsProper)
    (h : JudgesExtendStatement budget ts j rest) :
    Yields (extendStatement budget) ending ts (j.map some) rest := by
  cases h with
  | empty found =>
    apply yields_of_reads
    rw [extendStatement, reads_peek_bind_iff]
    simp [found]
  | field word isLabel phrase =>
    apply Yields.peek
    simp only [word, Keyword.token, Token.keyword?, Keyword.ofSpelling?_spelling,
      Option.bind_some, isLabel]
    exact (yields_labelledField proper word isLabel phrase).statement

theorem fills_of_extend {j : Judged ExtendBlock} (h : JudgesExtend budget ts j rest) :
    j.Fills ts rest :=
  fills_of_block fills_of_extendStatement h

theorem yields_extendBlock {j : Judged ExtendBlock} (proper : ending.IsProper)
    (h : JudgesExtend budget ts j rest) : Yields (extendBlock budget) ending ts j rest := by
  refine yields_block proper ?_ (yields_extendStatement proper) fills_of_extendStatement ?_ h
  · intro name d ts rest _ takes
    exact (reads_ident_iff proper).mpr ⟨d, takes⟩
  · intro _ t ts closes
    rw [extendStatement, reads_peek_bind_iff]
    simp [closes]

/-! ### Enums -/

theorem fills_of_enumValue {j : Judged EnumValue} (h : JudgesEnumValue budget ts j rest) :
    j.Fills ts rest := by
  cases h with
  | intro phrase => exact fills_of_numbered phrase

theorem fills_of_option {α : Type} {s : Setting} {ws : List Word} (v : α) (takes : Takes ts ws rest)
    (phrase : IsOptionStatement ws s) : (Judged.plain v).Fills ts rest := by
  cases phrase with
  | intro => exact Judged.fills_of_takes v takes

theorem fills_of_enumStatement {j : Judged EnumStatement}
    (h : JudgesEnumStatement budget ts j rest) : j.Fills ts rest := by
  cases h with
  | empty => exact (Judged.spans_plain _).cons _
  | option takes phrase => exact fills_of_option _ takes phrase
  | value phrase => exact fills_of_enumValue phrase

theorem yields_enumValue {j : Judged EnumValue} (proper : ending.IsProper)
    (h : JudgesEnumValue budget ts j rest) : Yields (enumValue budget) ending ts j rest := by
  cases h with
  | intro phrase => exact Yields.peek (yields_numbered proper (fun _ both => both.1) phrase)

/-- An enum value begins with a name that is no keyword of options. -/
private theorem ident_of_judges_enumValue {t : Located} {j : Judged EnumValue}
    (h : JudgesEnumValue budget (t :: ts) j rest) :
    ∃ name, t.token = .ident name ∧ name ≠ Keyword.optionWord.spelling := by
  cases h with
  | intro phrase =>
    cases phrase with
    | intro both takes _ _ _ _ => exact ⟨_, token_of_takes takes, both.2⟩

theorem yields_enumStatement {j : Judged EnumStatement} (proper : ending.IsProper)
    (h : JudgesEnumStatement budget ts j rest) :
    Yields (enumStatement budget) ending ts (j.map some) rest := by
  obtain ⟨t, ts, rfl⟩ := (fills_of_enumStatement h).exists_cons
  cases h with
  | empty found =>
    apply yields_of_reads
    rw [enumStatement, reads_peek_bind_iff]
    simp [found]
  | option takes phrase fits =>
    have word := optionWord_of_takes takes phrase
    apply yields_of_reads
    rw [enumStatement, reads_peek_bind_iff]
    simp only [word, Keyword.token, Token.keyword?, Keyword.ofSpelling?_spelling, if_true]
    exact (reads_optionWord_iff proper word).mpr ⟨_, rfl, _, takes, phrase, fits⟩
  | value phrase =>
    obtain ⟨name, found, differs⟩ := ident_of_judges_enumValue phrase
    have other : t.token.keyword? ≠ some .optionWord := fun same =>
      differs (Token.ident.inj (found.symm.trans (Token.keyword?_eq_some_iff.mp same)))
    apply Yields.peek
    rw [found] at other
    simp only [found, if_neg other]
    exact (yields_enumValue proper phrase).statement

theorem fills_of_enumType {scope : Scope} {j : Judged EnumType}
    (h : JudgesEnum budget scope ts j rest) : j.Fills ts rest :=
  fills_of_block fills_of_enumStatement h

theorem yields_enumType {scope : Scope} {j : Judged EnumType} (proper : ending.IsProper)
    (h : JudgesEnum budget scope ts j rest) : Yields (enumType budget scope) ending ts j rest := by
  refine yields_block proper ?_ (yields_enumStatement proper) fills_of_enumStatement ?_ h
  · intro name d ts rest plain takes
    exact (reads_plainName_iff proper).mpr ⟨plain, d, takes⟩
  · intro _ t ts closes
    rw [enumStatement, reads_peek_bind_iff]
    simp [closes]

/-! ### Services -/

theorem reads_rpcOptions_of_isRpcEndWithin {options : List Setting} {last : Located}
    (proper : ending.IsProper) (h : IsRpcEndWithin budget ts options last rest) :
    Reads (rpcOptions budget) ending ts options rest := by
  simp only [rpcOptions, reads_ifEat_iff proper, reads_bind_iff, reads_rpcStatements_iff proper,
    reads_expect_iff proper, reads_discard_iff, reads_eat_iff proper, reads_pure_iff]
  cases h with
  | semicolon ends =>
    exact .inr ⟨sees_cons_iff.mpr (by simp [ends]), ⟨⟩, rest, ⟨_, takes_of_token ends⟩, rfl, rfl⟩
  | @braces opened closed behind statements ws ts rest opens row fits takes closes other =>
    exact .inl ⟨_, ts, takes_of_token opens, statements, _,
      ⟨⟨ws, takes, row, fits⟩, sees_cons_iff.mpr closes⟩, ⟨⟩, behind :: rest,
      ⟨_, takes_of_token closes⟩, ⟨⟩, _, ⟨false, .inr ⟨rfl, rfl, sees_cons_iff.mpr other⟩⟩, rfl,
      rfl⟩
  | @both opened closed last statements ws ts rest opens row fits takes closes ends =>
    exact .inl ⟨_, ts, takes_of_token opens, statements, _,
      ⟨⟨ws, takes, row, fits⟩, sees_cons_iff.mpr closes⟩, ⟨⟩, last :: rest,
      ⟨_, takes_of_token closes⟩, ⟨⟩, _, ⟨true, .inl ⟨rfl, _, takes_of_token ends⟩⟩, rfl, rfl⟩

/-- The last token of a method is one of those that end it. -/
private theorem exists_used_of_isRpcEndWithin {options : List Setting} {last : Located}
    (h : IsRpcEndWithin budget ts options last rest) :
    ∃ used, ts = used ++ rest ∧ last ∈ used := by
  cases h with
  | semicolon => exact ⟨[last], rfl, List.mem_singleton_self last⟩
  | @braces opened _ behind _ _ ts rest _ _ _ takes =>
    obtain ⟨used, rfl, _⟩ := takes
    exact ⟨opened :: (used ++ [last]), by simp, by simp⟩
  | @both opened closed _ _ _ ts rest _ _ _ takes =>
    obtain ⟨used, rfl, _⟩ := takes
    exact ⟨opened :: (used ++ [closed, last]), by simp, by simp⟩

theorem fills_of_rpc {j : Judged Method} (h : JudgesRpc budget ts j rest) : j.Fills ts rest := by
  cases h with
  | @intro name request response start last options ws ts mid rest head takes ends =>
    obtain ⟨used, rfl, member⟩ := exists_used_of_isRpcEndWithin ends
    cases head with
    | intro _ =>
      obtain ⟨front, rfl, _⟩ := (takes_cons_cons_iff.mp takes).2
      rw [← List.append_assoc]
      exact Judged.fills_declare _ _ (by simp [member])

theorem yields_rpc {j : Judged Method} (proper : ending.IsProper)
    (h : JudgesRpc budget ts j rest) : Yields (rpc budget) ending ts j rest := by
  cases h with
  | @intro name request response start last options ws ts mid rest head takes ends =>
    cases head with
    | intro plain =>
      obtain ⟨word, takes⟩ := takes_cons_cons_iff.mp takes
      obtain ⟨found, _⟩ := Located.word_eq_iff.mp word
      obtain ⟨_, takesName, takes⟩ := takes_head_iff.mp takes
      obtain ⟨_, opened, takes⟩ := takes_head_iff.mp takes
      obtain ⟨_, takesRequest, takes⟩ := takes_head_iff.mp takes
      obtain ⟨_, closed, takes⟩ := takes_head_iff.mp takes
      obtain ⟨returns, behind, rfl, word, takes⟩ := takes_cons_iff.mp takes
      obtain ⟨returnsWord, _⟩ := Located.word_eq_iff.mp word
      obtain ⟨_, opened', takes⟩ := takes_head_iff.mp takes
      obtain ⟨_, takesResponse, closed'⟩ := takes_head_iff.mp takes
      refine Yields.expectKeyword (Yields.plainName ?_ proper plain takesName) proper found
      refine Yields.expect (Yields.ident (Yields.expect ?_ proper closed) proper takesRequest)
        proper opened
      have answers : Reads (discard (expectKeyword .returnsWord)) ending (returns :: behind) ()
          behind :=
        reads_discard_iff.mpr ⟨returns, (reads_expectKeyword_iff proper).mpr ⟨rfl, returnsWord⟩⟩
      -- The word between the two types says nothing.
      refine Yields.after ?_ answers
      refine Yields.expect (Yields.ident (Yields.expect ?_ proper closed') proper takesResponse)
        proper opened'
      refine Yields.after ?_ (reads_rpcOptions_of_isRpcEndWithin proper ends)
      exact yields_accept start last (Method.make name (docOf start) request response) options

theorem fills_of_serviceStatement {j : Judged ServiceStatement}
    (h : JudgesServiceStatement budget ts j rest) : j.Fills ts rest := by
  cases h with
  | empty => exact (Judged.spans_plain _).cons _
  | option takes phrase => exact fills_of_option _ takes phrase
  | method phrase => exact fills_of_rpc phrase

theorem yields_serviceStatement {j : Judged ServiceStatement} (proper : ending.IsProper)
    (h : JudgesServiceStatement budget ts j rest) :
    Yields (serviceStatement budget) ending ts (j.map some) rest := by
  obtain ⟨t, ts, rfl⟩ := (fills_of_serviceStatement h).exists_cons
  cases h with
  | empty found =>
    apply yields_of_reads
    rw [serviceStatement, reads_peek_bind_iff]
    simp [found]
  | option takes phrase fits =>
    have word := optionWord_of_takes takes phrase
    apply yields_of_reads
    rw [serviceStatement, reads_peek_bind_iff]
    simp only [word, Keyword.token, Token.keyword?, Keyword.ofSpelling?_spelling]
    exact (reads_optionWord_iff proper word).mpr ⟨_, rfl, _, takes, phrase, fits⟩
  | method phrase =>
    have word : t.token = Keyword.rpcWord.token := by
      cases phrase with
      | intro head takes _ =>
        cases head
        exact token_of_takes takes
    apply Yields.peek
    simp only [word, Keyword.token, Token.keyword?, Keyword.ofSpelling?_spelling]
    exact (yields_rpc proper phrase).statement

theorem fills_of_service {scope : Scope} {j : Judged Service}
    (h : JudgesService budget scope ts j rest) : j.Fills ts rest :=
  fills_of_block fills_of_serviceStatement h

theorem yields_service {scope : Scope} {j : Judged Service} (proper : ending.IsProper)
    (h : JudgesService budget scope ts j rest) :
    Yields (service budget scope) ending ts j rest := by
  refine yields_block proper ?_ (yields_serviceStatement proper) fills_of_serviceStatement ?_ h
  · intro name d ts rest plain takes
    exact (reads_plainName_iff proper).mpr ⟨plain, d, takes⟩
  · intro _ t ts closes
    rw [serviceStatement, reads_peek_bind_iff]
    simp [closes]

end Reading

end ProtoSchema
