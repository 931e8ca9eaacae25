import ProtoSchema.Proofs.Lexing.Tiling
import ProtoSchema.Proofs.Reading.Parse

/-!
# Texts that are read up to their end

What a text spells is read from it, but the filler at its end may go on in what follows. A text that
ends with no filler is read exactly: whatever follows, if only it is set apart, is where reading goes
on.
-/

namespace ProtoSchema

/-- A text from which these tokens are read so that the lexer stands right behind it. -/
def ReadsExactly (text : List Char) (ts : List Token) : Prop :=
  ∀ (l : Lexer) (rest : List Char), l.rest = text ++ rest → IsApart rest →
    ∃ used after, l.Gives used after ∧ (∀ t ∈ used, t.token ≠ .eof) ∧
      used.map Located.token = ts ∧ after.rest = rest

/-- A single token is taken as a whole. -/
theorem IsSpelling.readsExactly {text : List Char} {t : Token} (h : IsSpelling text t) :
    ReadsExactly text [t] := fun _ rest whole apart =>
  ⟨_, _, .call (Lexer.next_of_gap .nil whole (h.2 rest apart)) .done,
    List.forall_mem_singleton.mpr h.1, rfl, rfl⟩

/-! ### Filler at the end -/

/-- A character with which no filler ends but a line comment. -/
def IsSolid (c : Char) : Prop := c ∉ ['\n', ' ', '\t', '\r', '\x0b', '\x0c', '/']

instance (c : Char) : Decidable (IsSolid c) :=
  inferInstanceAs (Decidable (¬ _))

theorem Filler.exists_lineComment_of_isSolid {f : Filler} {c : Char} (proper : f.IsProper)
    (last : f.spelling.getLast? = some c) (solid : IsSolid c) : ∃ text, f = lineComment text := by
  cases f with
  | newline =>
    cases last
    exact absurd solid (by decide)
  | blank b =>
    cases last
    have space : isSpace b = true := proper
    simp only [isSpace, Bool.or_eq_true, decide_eq_true_eq, or_assoc] at space
    rcases space with rfl | rfl | rfl | rfl | rfl <;> exact absurd solid (by decide)
  | lineComment text => exact ⟨text, rfl⟩
  | blockComment text =>
    rw [spelling, List.getLast?_append_of_ne_nil _ (by decide)] at last
    cases last
    exact absurd solid (by decide)

/-- Filler that ends so ends with a line comment, which goes on in what follows on the line. -/
theorem Filler.scan_append_of_isSolid {text rest : List Char} {c : Char}
    (all : (scan text).2 = []) (last : text.getLast? = some c) (solid : IsSolid c)
    (line : '\n' ∉ rest) : (scan (text ++ rest)).2 = [] := by
  fun_induction scan text with
  | case1 text =>
    have none : text = [] := all
    rw [none] at last
    cases last
  | case2 text f behind first fillers after same ih =>
    have whole := first?_eq first
    obtain ⟨proper, mayPrecede⟩ := isProper_of_first? first
    cases behind with
    | cons d behind =>
      -- What stands behind the piece begins with the same character, so the piece is read again.
      have again : first? (text ++ rest) = some (f, d :: behind ++ rest) := by
        rw [whole, List.append_assoc]
        refine first?_spelling proper ?_
        cases f <;> exact mayPrecede
      rw [scan_of_first? again]
      rw [same] at ih
      rw [whole, List.getLast?_append_of_ne_nil _ (List.cons_ne_nil d behind)] at last
      exact ih all last
    | nil =>
      rw [List.append_nil] at whole
      subst whole
      obtain ⟨comment, rfl⟩ := exists_lineComment_of_isSolid proper last solid
      have inside : (lineComment (comment ++ rest)).IsProper := by
        rw [IsProper, List.mem_append, not_or]
        exact ⟨proper, line⟩
      have atEnd : (lineComment (comment ++ rest)).MayPrecede [] := by
        intro c first
        cases first
      have again := first?_spelling inside atEnd
      rw [List.append_nil] at again
      rw [spelling, List.cons_append, List.cons_append, ← spelling, scan_of_first? again]
      exact congrArg Prod.snd (scan_of_none rfl)

/-! ### Spelled texts -/

namespace Spells

variable {text : List Char} {ts : List Token}

/-- From a text by itself the tokens are read that it spells. -/
theorem tokens_run (h : Spells text (ts.map some)) {l : Lexer} (whole : l.rest = text) :
    ∃ mark, l.run.ending = .finished mark ∧ l.run.tokens.map Located.token = ts := by
  have read := l.words?_run
  have spelled := h l.config (.start l.onTokenLine) [] isApart_nil
  obtain ⟨words, found, same⟩ := exists_words_of_tokens l.config (.start l.onTokenLine) ts
  rw [List.append_nil, ← whole] at spelled
  rw [spelled, found] at read
  obtain ⟨mark, ending, tokens⟩ := TokenStream.finished_of_words? read
  exact ⟨mark, ending, tokens.trans same⟩

/-- Of a text that ends with no filler nothing is left behind the tokens that it spells. -/
theorem rest_eq_nil (h : Spells text (ts.map some)) {c : Char} (last : text.getLast? = some c)
    (solid : IsSolid c) {l stop : Lexer} {used : List Located} (whole : l.rest = text)
    (gives : l.Gives used stop) (tokens : used.map Located.token = ts)
    (more : ∀ t ∈ used, t.token ≠ .eof) (atEnd : (firstScan stop.rest).outcome = .ok .eof) :
    stop.rest = [] := by
  obtain ⟨front, split, -⟩ := gives.exists_front
  rw [whole] at split
  by_contra left
  -- What is left is filler, and a mark behind the text would belong to it.
  have swallowed : (Filler.scan (stop.rest ++ [';'])).2 = [] := by
    refine Filler.scan_append_of_isSolid (Token.eq_nil_of_scan_eof atEnd) ?_ solid (by decide)
    rw [← last, split, List.getLast?_append_of_ne_nil _ left]
  have replaces : CanReplace stop.rest (stop.rest ++ [';']) := by
    obtain ⟨d, rest, same⟩ := List.exists_cons_of_ne_nil left
    rw [same]
    exact .of_head? rfl
  have read := (gives.replaced more (whole.trans split) replaces).run more
  have ended := Lexer.run_of_eof (l := ⟨stop.config, stop.rest ++ [';'], stop.position,
    stop.onTokenLine⟩) (by rw [firstScan, swallowed]; rfl)
  -- But the text spells its tokens in front of a mark too, and the mark is one more.
  have marked : Spells (text ++ [';']) ((ts ++ [Token.mark .semicolon]).map some) := by
    rw [List.map_append]
    exact h.append (Spells.nil.mark .semicolon) (isApart_cons.mpr rfl)
  obtain ⟨_, -, tokens'⟩ := marked.tokens_run (l := ⟨l.config, front ++ (stop.rest ++ [';']),
    l.position, l.onTokenLine⟩) (by rw [← List.append_assoc, ← split])
  rw [read, ended, List.append_nil, tokens] at tokens'
  exact absurd (congrArg List.length tokens') (by simp)

/-- A text that ends with no filler is read exactly. -/
theorem readsExactly (h : Spells text (ts.map some)) {c : Char} (last : text.getLast? = some c)
    (solid : IsSolid c) : ReadsExactly text ts := by
  intro l rest whole apart
  -- The text by itself is read first, and then what follows is put behind it.
  have alone : (⟨l.config, text, l.position, l.onTokenLine⟩ : Lexer).rest = text := rfl
  generalize here : (⟨l.config, text, l.position, l.onTokenLine⟩ : Lexer) = l' at alone
  obtain ⟨mark, ending, tokens⟩ := h.tokens_run alone
  obtain ⟨proper, more⟩ := l'.run_isProper
  obtain ⟨stop, gives, answer⟩ := l'.exists_gives_run
  rw [ending] at proper answer
  have atEnd : (firstScan stop.rest).outcome = .ok .eof := by
    have next : stop.next = (.ok mark, stop.next.2) := Prod.ext answer rfl
    rw [← (proper : mark.token = .eof)]
    exact Lexer.firstScan_of_next next
  have nothing := h.rest_eq_nil last solid alone gives tokens more atEnd
  have split : l'.rest = text ++ stop.rest := by rw [alone, nothing, List.append_nil]
  have replaced := gives.replaced more split (.of_isApart apart)
  subst here
  rw [← whole] at replaced
  exact ⟨_, _, replaced, more, tokens, rfl⟩

end Spells

end ProtoSchema
