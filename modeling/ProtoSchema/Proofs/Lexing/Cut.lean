import ProtoSchema.Proofs.Lexing.Tiling
import ProtoSchema.Proofs.Reading.Reader

/-!
# Texts that are cut off

A text is cut in front of a token, and another text is written there, in a line of its own. A lexer
reads the tokens in front of the cut again, at the same places and with the same documentation, and
behind them the tokens of the other text.
-/

namespace ProtoSchema

open Reader

/-! ### Cuts -/

namespace Lexer

/-- Up to a place a lexer reads some tokens, and it reads them again if the text goes on with a line
feed there. Behind them it reads what it finds behind the filler of that text. -/
structure CutsAt (l : Lexer) (read : List Located) (place : Position) (front : List Char) :
    Prop where
  place_eq : place = l.position.advance front
  before : ∀ t ∈ read, t.position.offset < place.offset
  again : ∀ text, text.head? = some '\n' → ∃ l' : Lexer,
    (Filler.scan l'.rest).2 = (Filler.scan text).2 ∧
      (⟨l.config, front ++ text, l.position, l.onTokenLine⟩ : Lexer).run =
        ⟨read ++ l'.run.tokens, l'.run.ending⟩

/-- A lexer may be cut off in front of its first token. -/
theorem cutsAt_tokenPosition (l : Lexer) :
    l.CutsAt [] l.tokenPosition ((Filler.scan l.rest).1.flatMap Filler.spelling) where
  place_eq := rfl
  before := List.forall_mem_nil _
  again text newline := by
    refine ⟨_, ?_, rfl⟩
    rw [Filler.scan_append fun _ c first => ?_]
    rw [newline] at first
    exact (Option.mem_some_iff.mp first).symm

/-- If what stands behind its first token is replaced, a lexer reads that token and then what stands
there now. -/
theorem run_replaced {l : Lexer} {t : Token} {rest : List Char}
    (found : (firstScan l.rest).outcome = .ok t) (more : t ≠ .eof)
    (replaces : CanReplace (firstScan l.rest).rest rest) {behind : TokenStream}
    (run : (⟨l.config, rest, l.behindToken.position, true⟩ : Lexer).run = behind) :
    (⟨l.config, (Filler.scan l.rest).1.flatMap Filler.spelling ++ ((firstScan l.rest).taken ++ rest),
      l.position, l.onTokenLine⟩ : Lexer).run =
      ⟨⟨t, l.tokenPosition, l.documentation⟩ :: behind.tokens, behind.ending⟩ := by
  subst run
  exact run_of_next (next_replaced (next_of_token found) more replaces) more

theorem CutsAt.cons {l : Lexer} {t : Token} {read : List Located} {place : Position}
    {front back : List Char} (found : (firstScan l.rest).outcome = .ok t) (more : t ≠ .eof)
    (rest : (firstScan l.rest).rest = front ++ back)
    (h : l.behindToken.CutsAt read place front) :
    l.CutsAt (⟨t, l.tokenPosition, l.documentation⟩ :: read) place
      ((Filler.scan l.rest).1.flatMap Filler.spelling ++ ((firstScan l.rest).taken ++ front)) where
  place_eq := by
    rw [h.place_eq, behindToken, tokenPosition]
    simp only [Position.advance_append]
  before := by
    refine List.forall_mem_cons.mpr ⟨?_, h.before⟩
    have := Position.offset_lt_advance l.tokenPosition (taken_firstScan_ne_nil found more)
    have := Position.offset_le_advance l.behindToken.position front
    rw [h.place_eq]
    exact Nat.lt_of_lt_of_le ‹_› this
  again text newline := by
    obtain ⟨l', same, run⟩ := h.again text newline
    have apart : IsApart text := by
      intro c first
      rw [newline] at first
      cases Option.mem_some_iff.mp first
      rfl
    have replaces : CanReplace (firstScan l.rest).rest (front ++ text) :=
      rest ▸ (CanReplace.of_isApart apart).append front
    refine ⟨l', same, ?_⟩
    rw [List.append_assoc, List.append_assoc]
    exact run_replaced found more replaces run

/-- A lexer may be cut off in front of each of its tokens, and at its end. -/
theorem exists_cutsAt {l : Lexer} {read left : List Located} {t : Located}
    (split : l.run.tokens = read ++ left) (next : front? l.run.ending left = some t) :
    ∃ front back, l.rest = front ++ back ∧ l.CutsAt read t.position front := by
  have start : ∃ front back, l.rest = front ++ back ∧ l.CutsAt [] l.tokenPosition front :=
    ⟨_, _, (Filler.scan_eq l.rest).symm, l.cutsAt_tokenPosition⟩
  generalize whole : l.rest = text
  -- The induction is on the text; in front of the token that is meant the lexer is cut at once.
  induction text using text_induction generalizing l read left with
  | last text last =>
    subst whole
    cases found : (firstScan l.rest).outcome with
    | ok t' =>
      cases last t' found
      rw [run_of_eof found] at split next
      obtain ⟨rfl, rfl⟩ := List.append_eq_nil_iff.mp split.symm
      cases next
      exact start
    | error fault =>
      rw [run_of_fault found] at split next
      obtain ⟨rfl, rfl⟩ := List.append_eq_nil_iff.mp split.symm
      cases next
  | token text t' found more ih =>
    subst whole
    rw [run_of_token found more] at split next
    rcases List.cons_eq_append_iff.mp split with ⟨rfl, rfl⟩ | ⟨read, rfl, tail⟩
    · cases next
      exact start
    · obtain ⟨front, back, rest, cuts⟩ := ih tail next
        ⟨_, _, (Filler.scan_eq _).symm, cutsAt_tokenPosition _⟩ rfl
      have rest : (firstScan l.rest).rest = front ++ back := rest
      refine ⟨_, back, ?_, cuts.cons found more rest⟩
      rw [List.append_assoc, List.append_assoc, ← rest]
      exact firstScan_eq l.rest

end Lexer

end ProtoSchema
