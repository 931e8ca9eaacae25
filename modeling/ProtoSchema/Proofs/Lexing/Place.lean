import ProtoSchema.Proofs.Lexing.Layout
import ProtoSchema.Proofs.Text.Place

/-!
# Where tokens and faults are

All that a lexer reports stands in the text that it reads, behind what was reported before:
`Lexer.places_run` follows the lexer from token to token. What a scan complains about is in the
stretch that was scanned, so the place of a fault is found in the same way.
-/

namespace ProtoSchema

/-! ### Faults in a scan -/

namespace Scan

variable {α β : Type}

/-- What a scan complains about stands in the text that it was given. -/
def BlamesWithin (s : Scan α) : Prop :=
  ∀ fault, s.outcome = .error fault → fault.before <+: s.text

theorem blamesWithin_found (value : α) (taken rest : List Char) :
    (found value taken rest).BlamesWithin := by
  intro fault failed
  cases failed

theorem blamesWithin_failed (cause : LexicalCause) (taken rest : List Char) :
    (failed cause taken rest : Scan α).BlamesWithin := by
  intro fault failed
  cases failed
  exact List.nil_prefix

theorem BlamesWithin.behind {s : Scan α} (h : s.BlamesWithin) (front : List Char) (f : α → β) :
    (s.behind front f).BlamesWithin := by
  intro fault failed
  rw [text_behind]
  unfold Scan.behind at failed
  simp only at failed
  split at failed
  · cases failed
  next inner same =>
    cases failed
    exact (List.prefix_append_right_inj front).mpr (h inner same)

end Scan

open Scan

theorem Literal.blamesWithin_scanBody (quote : Char) (cs : List Char) :
    (scanBody quote cs).BlamesWithin := by
  fun_induction scanBody quote cs with
  | case1 => exact blamesWithin_found _ _ _
  | case2 => exact blamesWithin_found _ _ _
  | case3 => exact blamesWithin_found _ _ _
  | case4 rest byte taken after found _ _ ih => exact ih.behind _ _
  | case5 rest fault taken after found _ => exact blamesWithin_failed _ _ _
  | case6 c rest _ _ _ ih => exact ih.behind _ _

theorem Literal.blamesWithin_scan (quote : Char) (rest : List Char) :
    (scan quote rest).BlamesWithin := by
  have body := (blamesWithin_scanBody quote rest).behind [quote] id
  unfold scan
  simp only
  split
  · exact fun fault failed => nomatch failed
  · exact blamesWithin_failed _ _ _
  next fault failed =>
    intro fault' same
    cases same
    exact body fault failed

theorem blamesWithin_scanNumber (cs : List Char) : (scanNumber cs).BlamesWithin := by
  have behind (sign cs : List Char) : (Numeral.scanBehind sign cs).BlamesWithin := by
    unfold Numeral.scanBehind
    simp only
    split
    · split
      · exact blamesWithin_found _ _ _
      · exact blamesWithin_failed _ _ _
    · exact blamesWithin_failed _ _ _
  unfold scanNumber
  split <;> exact behind _ _

theorem Token.blamesWithin_scan (cs : List Char) : (scan cs).BlamesWithin := by
  have name (rest : List Char) : (scanNegativeName rest).BlamesWithin := by
    unfold scanNegativeName
    simp only
    split
    · exact blamesWithin_found _ _ _
    · exact blamesWithin_failed _ _ _
  unfold scan
  split
  · exact blamesWithin_found _ _ _
  · split
    · exact blamesWithin_found _ _ _
    · repeat' split
      all_goals first
        | exact Literal.blamesWithin_scan _ _
        | exact blamesWithin_found _ _ _
        | exact blamesWithin_scanNumber _
        | exact name _
        | exact blamesWithin_failed _ _ _

/-! ### Places in a text -/

/-- The place of the end mark or of the fault. -/
def Ending.position : Ending → Position
  | finished endMark => endMark.position
  | failed error => error.position

/-- The places of all tokens, and of the end mark or the fault behind them. -/
def TokenStream.positions (s : TokenStream) : List Position :=
  s.tokens.map Located.position ++ [s.ending.position]

namespace Lexer

variable {l : Lexer}

/-- What is reported where no token is read stands in the rest of the text. -/
theorem before_faultOf_isPrefixOf {text : List Char} {fault : Fault}
    (failed : (Token.scan text).outcome = .error fault) : (faultOf text fault).before <+: text := by
  unfold faultOf
  split
  · exact List.nil_prefix
  · have within := Token.blamesWithin_scan text fault failed
    rwa [Token.text_scan] at within

/-- The filler in front of a token is a stretch of the text. -/
private theorem filler_prefix (text : List Char) :
    (Filler.scan text).1.flatMap Filler.spelling <+: text :=
  ⟨(Filler.scan text).2, Filler.scan_eq text⟩

/-- Each place that a lexer reports is the end of a stretch of its text. -/
theorem places_run {p : Position} (member : p ∈ l.run.positions) :
    ∃ front, front <+: l.rest ∧ p = l.position.advance front := by
  generalize whole : l.rest = text
  -- The induction is on the text; places behind a token are those of the lexer behind it.
  induction text using text_induction generalizing l with
  | last text last =>
    subst whole
    cases found : (firstScan l.rest).outcome with
    | ok t =>
      cases last t found
      rw [run_of_eof found] at member
      cases List.mem_singleton.mp member
      exact ⟨_, filler_prefix l.rest, rfl⟩
    | error fault =>
      rw [run_of_fault found] at member
      cases List.mem_singleton.mp member
      -- A fault stands behind the filler, and as far into the token as its scan says.
      refine ⟨_, ?_, (Position.advance_append _ _ _).symm⟩
      have within := (List.prefix_append_right_inj
        ((Filler.scan l.rest).1.flatMap Filler.spelling)).mpr (before_faultOf_isPrefixOf found)
      rwa [Filler.scan_eq] at within
  | token text t found more ih =>
    subst whole
    rw [run_of_token found more] at member
    rcases List.mem_cons.mp member with rfl | behind
    · exact ⟨_, filler_prefix l.rest, rfl⟩
    -- What is read later stands behind the filler and the token.
    · obtain ⟨front, leading, place⟩ := ih behind rfl
      refine ⟨(Filler.scan l.rest).1.flatMap Filler.spelling ++ ((firstScan l.rest).taken ++ front),
        ?_, ?_⟩
      · conv => rhs; rw [firstScan_eq l.rest]
        rw [List.prefix_append_right_inj, List.prefix_append_right_inj]
        exact leading
      · rw [place, behindToken, tokenPosition, Position.advance_append, Position.advance_append]

/-- What a lexer reports stands behind what it has read. -/
theorem offset_le_of_mem_run {p : Position} (member : p ∈ l.run.positions) :
    l.position.offset ≤ p.offset := by
  obtain ⟨front, _, rfl⟩ := places_run member
  exact Position.offset_le_advance l.position front

/-- Offsets increase from token to token, up to the end mark or the fault. -/
theorem offsets_run (l : Lexer) :
    (l.run.positions.map Position.offset).Pairwise (· < ·) := by
  generalize whole : l.rest = text
  induction text using text_induction generalizing l with
  | last text last =>
    subst whole
    cases found : (firstScan l.rest).outcome with
    | ok t =>
      cases last t found
      rw [run_of_eof found]
      exact List.pairwise_singleton _ _
    | error fault =>
      rw [run_of_fault found]
      exact List.pairwise_singleton _ _
  | token text t found more ih =>
    subst whole
    rw [run_of_token found more]
    refine List.pairwise_cons.mpr ⟨?_, ih l.behindToken rfl⟩
    intro offset member
    obtain ⟨p, behind, rfl⟩ := List.mem_map.mp member
    -- The token is not empty, and what follows is behind it.
    have token := Position.offset_lt_advance l.tokenPosition (taken_firstScan_ne_nil found more)
    exact Nat.lt_of_lt_of_le token (offset_le_of_mem_run behind)

end Lexer

namespace TokenStream

variable {config : DocConfig} {text : List Char}

/-- Tokens, end mark and fault of a text are where their positions say. -/
theorem isExactIn_of_mem_positions {p : Position} (member : p ∈ (ofText config text).positions) :
    p.IsExactIn (Utf8.encode text) := by
  obtain ⟨front, leading, place⟩ := Lexer.places_run member
  exact Position.isExactIn_encode place leading

theorem offsets_ofText (config : DocConfig) (text : List Char) :
    ((ofText config text).positions.map Position.offset).Pairwise (· < ·) :=
  Lexer.offsets_run _

end TokenStream

end ProtoSchema
