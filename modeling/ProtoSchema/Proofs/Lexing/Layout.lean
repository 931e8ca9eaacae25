import Mathlib.Data.List.Forall2
import ProtoSchema.Proofs.Lexing.Filler
import ProtoSchema.Proofs.Lexing.Lookahead
import ProtoSchema.Proofs.Lexing.Run

/-!
# Texts that differ in layout

A gap is what may be written between two tokens without touching them: blanks and comments that have
an end. `IsSpaced` says that a text is another one with gaps in front of some of its tokens. Lexers of
two such texts, of any configurations, read the same tokens and end alike.
-/

namespace ProtoSchema

/-! ### Gaps -/

/-- Blanks and complete comments. A line comment is complete with the line feed behind it. -/
inductive IsGap : List Char → Prop
  | nil : IsGap []
  | blank {c : Char} {gap : List Char} :
      c ∈ [' ', '\t', '\r', '\n', '\x0b', '\x0c'] → IsGap gap → IsGap (c :: gap)
  | lineComment {text gap : List Char} :
      '\n' ∉ text → IsGap gap → IsGap ('/' :: '/' :: (text ++ '\n' :: gap))
  | blockComment {text gap : List Char} :
      ¬ ['*', '/'] <:+: text → IsGap gap → IsGap ('/' :: '*' :: (text ++ '*' :: '/' :: gap))

namespace Filler

theorem scan_of_first? {cs rest : List Char} {f : Filler} (h : first? cs = some (f, rest)) :
    scan cs = (f :: (scan rest).1, (scan rest).2) := by
  rw [scan]
  split
  next none => cases h.symm.trans none
  next found =>
    cases h.symm.trans found
    rfl

theorem scan_of_none {cs : List Char} (h : first? cs = none) : scan cs = ([], cs) := by
  rw [scan]
  split
  next => rfl
  next found => cases h.symm.trans found

/-- The filler in front of a text is read again in front of another one, and that goes on with its
own. At the end of the text a line comment may have no line feed yet. -/
theorem scan_append {cs rest : List Char}
    (behind : (scan cs).2 = [] → ∀ c ∈ rest.head?, c = '\n') :
    scan ((scan cs).1.flatMap spelling ++ rest) = ((scan cs).1 ++ (scan rest).1, (scan rest).2) := by
  revert behind
  -- The induction is on the fillers; only a line comment asks what is behind it.
  fun_induction scan cs with
  | case1 => exact fun _ => rfl
  | case2 cs f after first fillers last same ih =>
    intro behind
    rw [same] at ih
    have tiles := scan_eq after
    rw [same] at tiles
    obtain ⟨proper, follows⟩ := isProper_of_first? first
    have follows : f.MayPrecede (fillers.flatMap spelling ++ rest) := by
      cases f with
      | newline | blank | blockComment => exact trivial
      | lineComment text =>
        -- What stood behind the comment stands there again, unless it was the last filler.
        intro c begins
        cases spelled : fillers.flatMap spelling with
        | cons d more =>
          rw [spelled] at tiles begins
          cases begins
          exact follows c (tiles ▸ rfl)
        | nil =>
          rw [spelled, List.nil_append] at tiles begins
          refine behind ?_ c begins
          cases last with
          | nil => rfl
          | cons d more =>
            have newline : d = '\n' := follows d (tiles ▸ rfl)
            have none := first?_scan after
            rw [same, newline] at none
            cases none
    rw [List.flatMap_cons, List.append_assoc, scan_of_first? (first?_spelling proper follows),
      ih behind]
    rfl

end Filler

namespace IsGap

variable {gap : List Char}

/-- A gap is read as filler, whatever follows. -/
theorem scan (h : IsGap gap) (rest : List Char) :
    (Filler.scan (gap ++ rest)).2 = (Filler.scan rest).2 := by
  induction h with
  | nil => rfl
  | @blank c gap blank _ ih =>
    have first : ∃ f, Filler.first? (c :: (gap ++ rest)) = some (f, gap ++ rest) := by
      simp only [List.mem_cons, List.not_mem_nil, or_false] at blank
      rcases blank with rfl | rfl | rfl | rfl | rfl | rfl <;> exact ⟨_, rfl⟩
    obtain ⟨f, first⟩ := first
    rw [List.cons_append, Filler.scan_of_first? first, ih]
  | @lineComment text gap inside _ ih =>
    have comment : (Filler.lineComment text).IsProper := inside
    have behind : (Filler.lineComment text).MayPrecede ('\n' :: (gap ++ rest)) := by
      rintro c ⟨⟩
      rfl
    have first := Filler.first?_spelling comment behind
    -- The line feed behind the comment is a piece of filler of its own.
    have newline : Filler.first? ('\n' :: (gap ++ rest)) = some (.newline, gap ++ rest) := rfl
    rw [← ih, ← congrArg Prod.snd (Filler.scan_of_first? newline),
      ← congrArg Prod.snd (Filler.scan_of_first? first)]
    simp [Filler.spelling]
  | @blockComment text gap inside _ ih =>
    have comment : (Filler.blockComment text).IsProper := inside
    have first := @Filler.first?_spelling _ comment (gap ++ rest) trivial
    rw [← ih, ← congrArg Prod.snd (Filler.scan_of_first? first)]
    simp [Filler.spelling]

/-- A gap begins with no character of a name or a number. -/
theorem isApart (h : IsGap gap) : IsApart gap := by
  cases h with
  | nil => exact isApart_nil
  | blank blank =>
    simp only [List.mem_cons, List.not_mem_nil, or_false] at blank
    rcases blank with rfl | rfl | rfl | rfl | rfl | rfl <;> rw [isApart_cons] <;> rfl
  | lineComment | blockComment => rw [isApart_cons]; rfl

/-- A gap is all the filler in front of what begins with none. -/
theorem scan_of_none (h : IsGap gap) {text : List Char} (none : Filler.first? text = none) :
    (Filler.scan (gap ++ text)).1.flatMap Filler.spelling = gap ∧
      (Filler.scan (gap ++ text)).2 = text := by
  have behind : (Filler.scan (gap ++ text)).2 = text := by rw [h.scan, Filler.scan_of_none none]
  have tiles := Filler.scan_eq (gap ++ text)
  rw [behind] at tiles
  exact ⟨List.append_cancel_right tiles, behind⟩

end IsGap

namespace Lexer

variable {l : Lexer} {gap text rest : List Char}

/-- What stands behind a gap is read at its place. -/
theorem next_of_gap {t : Token} (isGap : IsGap gap) (whole : l.rest = gap ++ (text ++ rest))
    (found : Token.scan (text ++ rest) = .found t text rest) :
    l.next = (.ok ⟨t, l.position.advance gap, l.documentation⟩,
      ⟨l.config, rest, l.position.advance (gap ++ text), true⟩) := by
  obtain ⟨filler, behind⟩ := isGap.scan_of_none (Token.noFiller_of_scan (by rw [found]; rfl)).1
  have first : firstScan l.rest = .found t text rest := by rw [firstScan, whole, behind, found]
  have next := next_of_token (l := l) (t := t) (by rw [first]; rfl)
  rw [behindToken, tokenPosition, first, whole, filler] at next
  rw [Position.advance_append]
  exact next

end Lexer

/-! ### Spaced texts -/

/-- The second text is the first one with gaps in front of some of the tokens that are read from it;
behind the last of these the texts are the same. -/
inductive IsSpaced : List Char → List Char → Prop
  | same (text : List Char) : IsSpaced text text
  | token {text gap rest : List Char} {t : Token} :
      (firstScan text).outcome = .ok t → t ≠ .eof → IsGap gap →
      IsSpaced (firstScan text).rest rest →
      IsSpaced text
        ((Filler.scan text).1.flatMap Filler.spelling ++ (gap ++ ((firstScan text).taken ++ rest)))

theorem taken_firstScan_ne_nil {text : List Char} {t : Token}
    (found : (firstScan text).outcome = .ok t) (more : t ≠ .eof) : (firstScan text).taken ≠ [] := by
  unfold firstScan at found ⊢
  cases same : (Filler.scan text).2 with
  | nil =>
    rw [same] at found
    cases found
    exact absurd rfl more
  | cons c rest =>
    rw [same] at found
    exact Token.taken_scan_ne_nil found

/-- No token runs on into a gap. -/
theorem IsSpaced.canReplace {text text' : List Char} (h : IsSpaced text text') :
    CanReplace text text' := by
  cases h with
  | same => exact .of_head? rfl
  | @token _ gap rest t found more isGap _ =>
    -- The texts begin alike with the filler, if there is any. Otherwise the second one begins with
    -- the gap or, if that is empty, with the token.
    nth_rewrite 1 [firstScan_eq text]
    refine .append _ ?_
    cases gap with
    | nil =>
      obtain ⟨c, taken, same⟩ := List.exists_cons_of_ne_nil (taken_firstScan_ne_nil found more)
      rw [same]
      exact .of_head? rfl
    | cons c gap => exact .of_isApart (isApart_cons.mpr (isApart_cons.mp isGap.isApart))

/-- A token is found again behind the filler and a gap. -/
theorem scan_spaced {text gap rest : List Char} {t : Token}
    (found : (firstScan text).outcome = .ok t) (more : t ≠ .eof)
    (replaces : CanReplace (firstScan text).rest rest) :
    Filler.scan ((firstScan text).taken ++ rest) = ([], (firstScan text).taken ++ rest) ∧
      Filler.scan ((Filler.scan text).1.flatMap Filler.spelling ++
          (gap ++ ((firstScan text).taken ++ rest))) =
        ((Filler.scan text).1 ++ (Filler.scan (gap ++ ((firstScan text).taken ++ rest))).1,
          (Filler.scan (gap ++ ((firstScan text).taken ++ rest))).2) := by
  have again := Token.scan_replace found more replaces
  have noFiller := (Token.noFiller_of_scan (by rw [again]; rfl)).1
  refine ⟨Filler.scan_of_none noFiller, Filler.scan_append fun none => ?_⟩
  -- No line comment is the last filler: a token follows it.
  refine absurd ?_ (taken_firstScan_ne_nil found more)
  rw [firstScan, none]
  rfl

/-- Behind a gap the same token is read. -/
theorem firstScan_spaced {text gap rest : List Char} {t : Token}
    (found : (firstScan text).outcome = .ok t) (more : t ≠ .eof) (isGap : IsGap gap)
    (replaces : CanReplace (firstScan text).rest rest) :
    firstScan ((Filler.scan text).1.flatMap Filler.spelling ++
      (gap ++ ((firstScan text).taken ++ rest))) = .found t (firstScan text).taken rest := by
  obtain ⟨none, spaced⟩ := @scan_spaced text gap rest t found more replaces
  rw [firstScan, spaced, isGap.scan, none]
  exact Token.scan_replace found more replaces

/-! ### Lexers of spaced texts -/

/-- Two tokens differ in documentation and in what `place` leaves out of their places. -/
structure Located.Matches (place : Position → Position) (t t' : Located) : Prop where
  token : t'.token = t.token
  position : place t'.position = place t.position

/-- Two token streams end alike: with end marks that are related, or with faults that differ only in
what `place` leaves out of their places. -/
inductive Ending.Matches (related : Located → Located → Prop) (place : Position → Position) :
    Ending → Ending → Prop
  | finished {t t' : Located} :
      related t t' → Matches related place (.finished t) (.finished t')
  | failed {e e' : LexicalError} :
      e'.cause = e.cause → place e'.position = place e.position →
      Matches related place (.failed e) (.failed e')

theorem Ending.Matches.imp {related related' : Located → Located → Prop}
    {place : Position → Position} {ending ending' : Ending}
    (h : ending.Matches related place ending') (weaker : ∀ t t', related t t' → related' t t') :
    ending.Matches related' place ending' := by
  cases h with
  | finished mark => exact .finished (weaker _ _ mark)
  | failed cause position => exact .failed cause position

/-- Two token streams differ in documentation and in what `place` leaves out of places. -/
structure TokenStream.Matches (place : Position → Position) (s s' : TokenStream) : Prop where
  tokens : List.Forall₂ (Located.Matches place) s.tokens s'.tokens
  ending : s.ending.Matches (Located.Matches place) place s'.ending

namespace Lexer

variable {place : Position → Position}

/-- What a text is read as does not depend on the configuration, nor on what stands in front. -/
theorem matches_run_of_rest_eq {text : List Char} :
    ∀ {l l' : Lexer}, l.rest = text → l'.rest = text →
      (∀ front, place (l'.position.advance front) = place (l.position.advance front)) →
      l.run.Matches place l'.run := by
  -- The induction is on the text that both lexers have in front of them; their places move on
  -- together, whatever else is different.
  induction text using text_induction with
  | last text last =>
    rintro l l' rfl same places
    have position : place l'.tokenPosition = place l.tokenPosition := by
      rw [tokenPosition, same]
      exact places _
    cases found : (firstScan l.rest).outcome with
    | ok t =>
      cases last t found
      rw [run_of_eof found, run_of_eof (same ▸ found)]
      exact ⟨.nil, .finished ⟨rfl, position⟩⟩
    | error fault =>
      rw [run_of_fault found, run_of_fault (same ▸ found), same]
      refine ⟨.nil, .failed rfl ?_⟩
      rw [tokenPosition, tokenPosition, same, ← Position.advance_append,
        ← Position.advance_append]
      exact places _
  | token text t found more ih =>
    rintro l l' rfl same places
    have behind : l'.behindToken.rest = (firstScan l.rest).rest := by
      rw [behindToken, same]
    have later := @ih l.behindToken l'.behindToken rfl behind fun front => by
      unfold behindToken tokenPosition
      rw [same]
      simp only [← Position.advance_append]
      exact places _
    have position : place l'.tokenPosition = place l.tokenPosition := by
      rw [tokenPosition, same]
      exact places _
    have found' : (firstScan l'.rest).outcome = .ok t := same ▸ found
    rw [run_of_token found more, run_of_token found' more]
    exact ⟨.cons ⟨rfl, position⟩ later.tokens, later.ending⟩

/-- Lexers that find the same text behind their fillers read the same tokens. -/
theorem matches_run_of_scan_eq {l l' : Lexer}
    (same : (Filler.scan l'.rest).2 = (Filler.scan l.rest).2) :
    l.run.Matches (fun _ => .start) l'.run := by
  have first : firstScan l'.rest = firstScan l.rest := congrArg Token.scan same
  cases found : (firstScan l.rest).outcome with
  | error fault =>
    rw [run_of_fault found, run_of_fault (first ▸ found), same]
    exact ⟨.nil, .failed rfl rfl⟩
  | ok t =>
    by_cases more : t = .eof
    · subst more
      rw [run_of_eof found, run_of_eof (first ▸ found)]
      exact ⟨.nil, .finished ⟨rfl, rfl⟩⟩
    · have found' : (firstScan l'.rest).outcome = .ok t := first ▸ found
      have later : l.behindToken.run.Matches (fun _ => .start) l'.behindToken.run :=
        matches_run_of_rest_eq rfl (by rw [behindToken, first]; rfl) fun _ => rfl
      rw [run_of_token found more, run_of_token found' more]
      exact ⟨.cons ⟨rfl, rfl⟩ later.tokens, later.ending⟩

/-- Gaps in front of tokens change no token. -/
theorem matches_run_of_isSpaced {text text' : List Char} (spaced : IsSpaced text text') :
    ∀ {l l' : Lexer}, l.rest = text → l'.rest = text' →
      l.run.Matches (fun _ => .start) l'.run := by
  induction spaced with
  | same => exact fun left right => matches_run_of_rest_eq left right fun _ => rfl
  | @token text gap rest t found more isGap later ih =>
    intro l l' left right
    have again := firstScan_spaced found more isGap later.canReplace
    subst left
    rw [← right] at again
    have found' : (firstScan l'.rest).outcome = .ok t := by rw [again]; rfl
    have behind : l'.behindToken.rest = rest := by
      rw [behindToken, again]
      rfl
    have tail := @ih l.behindToken l'.behindToken rfl behind
    rw [run_of_token found more, run_of_token found' more]
    exact ⟨.cons ⟨rfl, rfl⟩ tail.tokens, tail.ending⟩

end Lexer

end ProtoSchema
