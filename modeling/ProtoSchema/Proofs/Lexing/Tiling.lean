import ProtoSchema.Proofs.Lexing.Layout
import ProtoSchema.Proofs.Text.Place

/-!
# How a lexer goes through its text

Each call of a lexer skips blanks and comments, takes a token and stops right behind it, and the next
call begins there: nothing is left out and nothing is taken twice. `next_isTile` says so of one call,
`TokenStream.tiles_ofText` of all calls on a text. What is taken for a token is that token by itself,
whatever stands around it.
-/

namespace ProtoSchema

/-! ### Filler -/

/-- Blanks and comments in front of a text. A block comment is closed, and a line comment runs up to
a line feed or to the end of all. -/
inductive FillsUpTo (behind : List Char) : List Char → Prop
  | nil : FillsUpTo behind []
  | blank {c : Char} {gap : List Char} :
      c ∈ [' ', '\t', '\r', '\n', '\x0b', '\x0c'] → FillsUpTo behind gap →
      FillsUpTo behind (c :: gap)
  | lineComment {text gap : List Char} :
      '\n' ∉ text → (∀ c ∈ (gap ++ behind).head?, c = '\n') → FillsUpTo behind gap →
      FillsUpTo behind ('/' :: '/' :: (text ++ gap))
  | blockComment {text gap : List Char} :
      ¬ ['*', '/'] <:+: text → FillsUpTo behind gap →
      FillsUpTo behind ('/' :: '*' :: (text ++ '*' :: '/' :: gap))

/-- What is skipped is blanks and comments. -/
theorem Filler.fillsUpTo_scan (cs : List Char) :
    FillsUpTo (scan cs).2 ((scan cs).1.flatMap spelling) := by
  fun_induction scan cs with
  | case1 => exact .nil
  | case2 cs f rest first fillers after same ih =>
    have tiles := scan_eq rest
    rw [same] at ih tiles
    obtain ⟨proper, behind⟩ := isProper_of_first? first
    rw [List.flatMap_cons]
    cases f with
    | newline => exact .blank (by decide) ih
    | blank c =>
      have space : isSpace c = true := proper
      refine .blank ?_ ih
      simp only [isSpace, Bool.or_eq_true, decide_eq_true_eq, or_assoc] at space
      rcases space with rfl | rfl | rfl | rfl | rfl <;> decide
    | lineComment text => exact .lineComment proper (tiles ▸ behind) ih
    | blockComment text =>
      have spelled : (blockComment text).spelling ++ fillers.flatMap spelling =
          '/' :: '*' :: (text ++ '*' :: '/' :: fillers.flatMap spelling) := by
        simp [spelling]
      rw [spelled]
      exact .blockComment proper ih

/-! ### The end mark -/

private theorem ne_eof_of_numeral {negative : Bool} {text : String} {n : Numeral} {t : Token}
    (h : n.token negative text = .ok t) : t ≠ .eof := by
  have integer {base : Nat} {digits : List Char}
      (h : Numeral.integer negative text base digits = .ok t) : t ≠ .eof := by
    unfold Numeral.integer at h
    cases read : Numeral.readInteger text base 0 digits with
    | error cause =>
      rw [read] at h
      cases h
    | ok n =>
      rw [read] at h
      cases h
      exact nofun
  unfold Numeral.token at h
  split at h
  next =>
    split at h
    next => cases h
    next => exact integer h
  next => split at h <;> exact integer h
  next =>
    unfold Numeral.float at h
    simp only at h
    split at h
    next => cases h
    next =>
      split at h <;> cases h
      exact nofun

private theorem ne_eof_of_scanNumber {cs : List Char} {t : Token}
    (h : (scanNumber cs).outcome = .ok t) : t ≠ .eof := by
  have behind {sign cs : List Char} (h : (Numeral.scanBehind sign cs).outcome = .ok t) :
      t ≠ .eof := by
    unfold Numeral.scanBehind at h
    simp only at h
    split at h
    next =>
      split at h
      next token =>
        cases h
        exact ne_eof_of_numeral token
      next => cases h
    next => cases h
  unfold scanNumber at h
  split at h <;> exact behind h

private theorem ne_eof_of_scanLiteral {quote : Char} {rest : List Char} {t : Token}
    (h : (Literal.scan quote rest).outcome = .ok t) : t ≠ .eof := by
  unfold Literal.scan at h
  simp only at h
  split at h <;> cases h
  exact nofun

/-- The end mark is read only where nothing is left. -/
theorem Token.eq_nil_of_scan_eof {text : List Char} (h : (scan text).outcome = .ok .eof) :
    text = [] := by
  cases text with
  | nil => rfl
  | cons c rest =>
    -- Each kind of token has a scan of its own, and none of these gives the end mark.
    rw [scan] at h
    split at h
    next => cases h
    split at h
    next => exact absurd rfl (ne_eof_of_scanLiteral h)
    split at h
    next => cases h
    split at h
    next => cases h
    split at h
    next => exact absurd rfl (ne_eof_of_scanNumber h)
    split at h
    next => exact absurd rfl (ne_eof_of_scanNumber h)
    split at h
    next => exact absurd rfl (ne_eof_of_scanNumber h)
    split at h
    next =>
      obtain ⟨-, name, -⟩ := of_scanNegativeName_eq_ok h
      cases name
    next => cases h

/-! ### Calls -/

namespace Lexer

/-- Called so many times, one call after the other, a lexer gives these tokens and no fault, and then
stands at another place. -/
inductive Gives : Lexer → List Located → Lexer → Prop
  | done {l : Lexer} : Gives l [] l
  | call {l mid after : Lexer} {t : Located} {ts : List Located} :
      l.next = (.ok t, mid) → Gives mid ts after → Gives l (t :: ts) after

/-- A call on a lexer that stands in a text behind `front`: there the text goes on with a gap and the
token. A token is what it would be if nothing stood around it. Behind the end mark nothing is left,
and so it is given again and again. -/
structure IsTile (text front gap taken : List Char) (l : Lexer) (t : Located) (after : Lexer) :
    Prop where
  whole : text = front ++ (gap ++ (taken ++ after.rest))
  start : l.position = Position.start.advance front
  place : t.position = Position.start.advance (front ++ gap)
  behind : after.position = Position.start.advance (front ++ (gap ++ taken))
  filler : FillsUpTo (taken ++ after.rest) gap
  alone : t.token ≠ .eof → taken ≠ [] ∧ ∀ config, TokenStream.ofText config taken =
    ⟨[⟨t.token, .start, none⟩], .finished ⟨.eof, Position.start.advance taken, none⟩⟩
  atEnd : t.token = .eof → taken = [] ∧ after.rest = [] ∧
    after.next = (.ok ⟨.eof, after.position, none⟩, after)

variable {l mid after : Lexer} {t : Located} {ts : List Located}

/-- Where nothing is left, a lexer gives the end mark. -/
theorem next_nil (config : DocConfig) (p : Position) (onTokenLine : Bool) :
    (⟨config, [], p, onTokenLine⟩ : Lexer).next = (.ok ⟨.eof, p, none⟩, ⟨config, [], p, true⟩) := by
  have noFiller : Filler.scan [] = ([], []) := Filler.scan_of_none rfl
  unfold next
  rw [noFiller]
  rfl

theorem run_nil (config : DocConfig) (p : Position) (onTokenLine : Bool) :
    (⟨config, [], p, onTokenLine⟩ : Lexer).run = ⟨[], .finished ⟨.eof, p, none⟩⟩ := by
  have next := next_nil config p onTokenLine
  rw [run]
  split
  next h => cases next.symm.trans h
  next h =>
    cases next.symm.trans h
    rfl

/-- Where a lexer gives a token, it is the one behind the filler. -/
theorem eq_of_next (next : l.next = (.ok t, after)) :
    t = ⟨t.token, l.tokenPosition, l.documentation⟩ ∧ after = l.behindToken := by
  have same := next.symm.trans (next_of_token (firstScan_of_next next))
  rw [Prod.mk.injEq, Except.ok.injEq] at same
  exact same

/-- What is taken for a token, by itself, is that token and nothing else. -/
theorem ofText_taken {text : List Char} {t : Token} (found : (firstScan text).outcome = .ok t)
    (more : t ≠ .eof) (config : DocConfig) : TokenStream.ofText config (firstScan text).taken =
      ⟨[⟨t, .start, none⟩],
        .finished ⟨.eof, Position.start.advance (firstScan text).taken, none⟩⟩ := by
  have again : Token.scan (firstScan text).taken = .found t (firstScan text).taken [] := by
    have replaced := Token.scan_replace found more (.of_isApart isApart_nil)
    rwa [List.append_nil] at replaced
  generalize (firstScan text).taken = taken at again ⊢
  -- No filler stands in front of the token.
  have noFiller : Filler.scan taken = ([], taken) :=
    Filler.scan_of_none (Token.noFiller_of_scan (t := t) (by rw [again]; rfl)).1
  have first : firstScan (ofText config taken).rest = .found t taken [] := by
    change Token.scan (Filler.scan taken).2 = _
    rw [noFiller, again]
  have position : (ofText config taken).tokenPosition = .start := by
    change Position.start.advance ((Filler.scan taken).1.flatMap Filler.spelling) = _
    rw [noFiller]
    rfl
  have doc : (ofText config taken).documentation = none := by
    change (Documentation.gather config false (Filler.scan taken).1).doc? = none
    rw [noFiller]
    rfl
  have behind : (ofText config taken).behindToken =
      ⟨config, [], Position.start.advance taken, true⟩ := by
    rw [behindToken, position, first]
    rfl
  have run := run_of_token (l := ofText config taken) (t := t) (by rw [first]; rfl) more
  rwa [position, doc, behind, run_nil] at run

theorem next_isTile {text front : List Char} (whole : text = front ++ l.rest)
    (start : l.position = Position.start.advance front) (next : l.next = (.ok t, after)) :
    IsTile text front ((Filler.scan l.rest).1.flatMap Filler.spelling) (firstScan l.rest).taken
      l t after := by
  have found := firstScan_of_next next
  obtain ⟨token, rfl⟩ := eq_of_next next
  have tiles := Token.text_scan (Filler.scan l.rest).2
  have place : t.position =
      Position.start.advance (front ++ (Filler.scan l.rest).1.flatMap Filler.spelling) := by
    rw [token, Position.advance_append, ← start]
    rfl
  refine ⟨?_, start, place, ?_, ?_, fun more => ?_, fun eof => ?_⟩
  · rw [whole]
    exact congrArg (front ++ ·) (firstScan_eq l.rest)
  · rw [← List.append_assoc, Position.advance_append, ← place, token]
    rfl
  · have filler := Filler.fillsUpTo_scan l.rest
    rwa [← tiles] at filler
  · exact ⟨taken_firstScan_ne_nil found more, ofText_taken found more⟩
  · rw [eof] at found
    have nothing := Token.eq_nil_of_scan_eof found
    rw [firstScan, nothing]
    refine ⟨rfl, ?_, ?_⟩
    · rw [behindToken, firstScan, nothing]
      rfl
    · unfold behindToken
      rw [firstScan, nothing]
      exact next_nil ..

/-- The offsets around a token count the bytes of what has been gone through. -/
theorem IsTile.offsets {text front gap taken : List Char}
    (h : IsTile text front gap taken l t after) :
    t.position.offset = l.position.offset + (Utf8.encode gap).length ∧
      after.position.offset = t.position.offset + (Utf8.encode taken).length ∧
      (Utf8.encode text).length = after.position.offset + (Utf8.encode after.rest).length := by
  have whole := congrArg (fun text => (Utf8.encode text).length) h.whole
  rw [h.start, h.place, h.behind]
  simp only [Position.offset_advance, Utf8.encode_append, List.length_append] at whole ⊢
  have zero : Position.start.offset = 0 := rfl
  omega

/-- If what stands behind its next token is replaced, a lexer gives that token again, and then it
stands in front of the replacement. -/
theorem next_replaced {rest : List Char} (next : l.next = (.ok t, after)) (more : t.token ≠ .eof)
    (replaces : CanReplace after.rest rest) :
    (⟨l.config, (Filler.scan l.rest).1.flatMap Filler.spelling ++ ((firstScan l.rest).taken ++ rest),
      l.position, l.onTokenLine⟩ : Lexer).next =
      (.ok t, ⟨after.config, rest, after.position, after.onTokenLine⟩) := by
  have found := firstScan_of_next next
  obtain ⟨token, rfl⟩ := eq_of_next next
  obtain ⟨none, spaced⟩ := @scan_spaced l.rest [] rest t.token found more replaces
  have again := @firstScan_spaced l.rest [] rest t.token found more .nil replaces
  rw [List.nil_append, none, List.append_nil] at spaced
  rw [List.nil_append] at again
  generalize (Filler.scan l.rest).1.flatMap Filler.spelling ++
    ((firstScan l.rest).taken ++ rest) = text at spaced again ⊢
  have found' : (firstScan text).outcome = .ok t.token := by rw [again]; rfl
  -- The same filler stands in front of the token, so its place and documentation stay.
  have filler : (Filler.scan text).1 = (Filler.scan l.rest).1 := by rw [spaced]
  have position : (⟨l.config, text, l.position, l.onTokenLine⟩ : Lexer).tokenPosition =
      l.tokenPosition := by
    rw [tokenPosition, filler, tokenPosition]
  have doc : (⟨l.config, text, l.position, l.onTokenLine⟩ : Lexer).documentation =
      l.documentation := by
    rw [documentation, filler, documentation]
  have behind : (⟨l.config, text, l.position, l.onTokenLine⟩ : Lexer).behindToken =
      ⟨l.config, rest, l.behindToken.position, true⟩ := by
    rw [behindToken, position, again]
    rfl
  rw [next_of_token found', position, doc, behind, token]
  rfl

/-! ### One call after the other -/

/-- However often a lexer was called, it stands behind what it has gone through. -/
theorem Gives.exists_front (h : l.Gives ts after) :
    ∃ front, l.rest = front ++ after.rest ∧ after.position = l.position.advance front := by
  induction h with
  | done => exact ⟨[], rfl, rfl⟩
  | @call l mid after t ts next _ ih =>
    obtain ⟨front, whole, position⟩ := ih
    obtain ⟨-, rfl⟩ := eq_of_next next
    refine ⟨(Filler.scan l.rest).1.flatMap Filler.spelling ++ ((firstScan l.rest).taken ++ front),
      ?_, ?_⟩
    · have whole : (firstScan l.rest).rest = front ++ after.rest := whole
      rw [List.append_assoc, List.append_assoc, ← whole]
      exact firstScan_eq l.rest
    · rw [position, behindToken, tokenPosition]
      simp only [Position.advance_append]

theorem Gives.position {text : List Char} (h : l.Gives ts after)
    (whole : l.rest = text ++ after.rest) : after.position = l.position.advance text := by
  obtain ⟨front, split, position⟩ := h.exists_front
  rw [position, List.append_cancel_right (split.symm.trans whole)]

/-- What a lexer gives, if that is not the end mark, is how its run begins. -/
theorem Gives.run (h : l.Gives ts after) (more : ∀ t ∈ ts, t.token ≠ .eof) :
    l.run = ⟨ts ++ after.run.tokens, after.run.ending⟩ := by
  induction h with
  | done => rfl
  | @call l mid after t ts next _ ih =>
    obtain ⟨first, more⟩ := List.forall_mem_cons.mp more
    rw [run_of_next next first, ih more]
    rfl

theorem Gives.config (h : l.Gives ts after) : after.config = l.config := by
  induction h with
  | done => rfl
  | call next _ ih =>
    obtain ⟨-, rfl⟩ := eq_of_next next
    exact ih

/-- One more call. -/
theorem Gives.snoc (h : l.Gives ts mid) (next : mid.next = (.ok t, after)) :
    l.Gives (ts ++ [t]) after := by
  induction h with
  | done => exact .call next .done
  | call first _ ih => exact .call first (ih next)

/-- Where something is left, the end mark has not been given. -/
theorem Gives.ne_eof (h : l.Gives ts after) (left : after.rest ≠ []) :
    ∀ t ∈ ts, t.token ≠ .eof := by
  induction h with
  | done => exact nofun
  | @call l mid after t ts next later ih =>
    refine List.forall_mem_cons.mpr ⟨fun eof => left ?_, ih left⟩
    have found := firstScan_of_next next
    rw [eof] at found
    have nothing : (firstScan l.rest).rest = [] := by
      rw [firstScan, Token.eq_nil_of_scan_eof found]
      rfl
    obtain ⟨-, rfl⟩ := eq_of_next next
    obtain ⟨front, whole, -⟩ := later.exists_front
    exact (List.append_eq_nil_iff.mp (whole.symm.trans nothing)).2

/-- What a lexer gives it gives again if what stands behind that is replaced. -/
theorem Gives.replaced {front rest : List Char} (h : l.Gives ts after)
    (more : ∀ t ∈ ts, t.token ≠ .eof) (whole : l.rest = front ++ after.rest)
    (replaces : CanReplace after.rest rest) :
    (⟨l.config, front ++ rest, l.position, l.onTokenLine⟩ : Lexer).Gives ts
      ⟨after.config, rest, after.position, after.onTokenLine⟩ := by
  -- The induction is on the calls; each leaves less of the text in front of the replacement.
  induction h generalizing front with
  | @done l =>
    have none : front = [] := List.self_eq_append_left.mp whole
    rw [none, List.nil_append]
    exact .done
  | @call l mid after t ts next later ih =>
    obtain ⟨first, more⟩ := List.forall_mem_cons.mp more
    obtain ⟨front', whole', -⟩ := later.exists_front
    have split : front = (Filler.scan l.rest).1.flatMap Filler.spelling ++
        ((firstScan l.rest).taken ++ front') := by
      obtain ⟨-, rfl⟩ := eq_of_next next
      have whole' : (firstScan l.rest).rest = front' ++ after.rest := whole'
      refine List.append_cancel_right (?_ : _ ++ after.rest = _)
      rw [← whole, List.append_assoc, List.append_assoc, ← whole']
      exact firstScan_eq l.rest
    have replaces' : CanReplace mid.rest (front' ++ rest) := by
      rw [whole']
      exact replaces.append front'
    rw [split, List.append_assoc, List.append_assoc]
    exact .call (next_replaced next first replaces') (ih more whole' replaces)

end Lexer

/-- The answer to the call that ends a run. -/
def Ending.answer : Ending → Except LexicalError Located
  | finished endMark => .ok endMark
  | failed error => .error error

/-- All answers of a run: its tokens and then the end mark or the fault. -/
def TokenStream.answers (s : TokenStream) : List (Except LexicalError Located) :=
  s.tokens.map .ok ++ [s.ending.answer]

/-- The answers of a run are those to one call after the other. -/
theorem Lexer.exists_gives_run (l : Lexer) :
    ∃ last, l.Gives l.run.tokens last ∧ last.next.1 = l.run.ending.answer := by
  fun_induction Lexer.run l with
  | case1 l error after next => exact ⟨l, .done, congrArg Prod.fst next⟩
  | case2 l t after next => exact ⟨l, .done, congrArg Prod.fst next⟩
  | case3 l t after next more stream ih =>
    obtain ⟨last, gives, answer⟩ := ih
    exact ⟨last, .call next gives, answer⟩

/-- A run gives no more tokens than there are characters. -/
theorem Lexer.length_tokens_run_le (l : Lexer) : l.run.tokens.length ≤ l.rest.length := by
  fun_induction Lexer.run l with
  | case1 | case2 => exact Nat.zero_le _
  | case3 l t after next more stream ih =>
    have shorter := length_rest_next_lt next more
    exact Nat.lt_of_le_of_lt ih shorter

theorem Utf8.length_le_length_encode (text : List Char) : text.length ≤ (encode text).length := by
  induction text with
  | nil => exact Nat.zero_le _
  | cons c text ih =>
    have := c.utf8Size_pos
    rw [encode_cons, List.length_append, String.length_utf8EncodeChar, List.length_cons]
    omega

namespace TokenStream

/-- The calls of a lexer cut its text into gaps and tokens, without leaving anything out: each call
begins where the one before it has ended. The answers of a run are those to its calls, and there is
at most one more than there are bytes. -/
theorem tiles_ofText (config : DocConfig) (text : List Char) :
    (∀ ts l t after, (Lexer.ofText config text).Gives ts l → l.next = (.ok t, after) →
      ∃ front gap taken, Lexer.IsTile text front gap taken l t after ∧
        l.position.offset ≤ t.position.offset ∧ t.position.offset ≤ after.position.offset ∧
        after.position.offset ≤ (Utf8.encode text).length ∧
        (t.token ≠ .eof → t.position.offset < after.position.offset) ∧
        (t.token = .eof → t.position.offset = (Utf8.encode text).length)) ∧
      (∃ last, (Lexer.ofText config text).Gives (ofText config text).tokens last ∧
        last.next.1 = (ofText config text).ending.answer) ∧
      (ofText config text).answers.length ≤ (Utf8.encode text).length + 1 := by
  refine ⟨fun ts l t after gives next => ?_, Lexer.exists_gives_run _, ?_⟩
  · obtain ⟨front, whole, position⟩ := gives.exists_front
    have tile : Lexer.IsTile text front _ _ l t after := Lexer.next_isTile whole position next
    obtain ⟨place, behind, all⟩ := tile.offsets
    refine ⟨front, _, _, tile, by omega, by omega, by omega, fun more => ?_, fun eof => ?_⟩
    · -- A token has a character, and that has a byte.
      have nonempty := List.length_pos_iff.mpr (tile.alone more).1
      have bytes := Utf8.length_le_length_encode (firstScan l.rest).taken
      omega
    · obtain ⟨taken, rest, -⟩ := tile.atEnd eof
      rw [all, behind, taken, rest]
      rfl
  · have tokens := Lexer.length_tokens_run_le (Lexer.ofText config text)
    have bytes := Utf8.length_le_length_encode text
    rw [answers, List.length_append, List.length_map, List.length_singleton]
    exact Nat.succ_le_succ (Nat.le_trans tokens bytes)

/-- Numbers and names may touch. -/
example : (ofText {} "0x1.5-inf\"x\"1..5//".toList).tokens.map (·.position.column) =
    [1, 4, 6, 10, 13, 15] := by
  decide +kernel

end TokenStream

end ProtoSchema
