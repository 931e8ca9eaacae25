import ProtoSchema.Proofs.Lexing.Filler
import ProtoSchema.Proofs.Lexing.Run

/-!
# Which comments document a token

The lexer keeps three facts while it takes the filler in front of a token. `attached` says without
them which comments are left: it drops those that trail the token before and those in front of an
empty line. What trails is a parameter, for a lexer does not ask whether a comment begins on the line
of the token before but whether a line feed outside comments stands between them. The two differ
behind a block comment of several lines.
-/

namespace ProtoSchema

namespace Documentation

/-! ### Comments that are left -/

/-- The documentation that a filler is, if it is a comment. -/
def commentText? : Filler → Option (List Char)
  | .lineComment text => some (ofLineComment text)
  | .blockComment text => some (ofBlockComment text)
  | _ => none

/-- Whether a filler is a blank other than the line feed. -/
def isBlankFiller : Filler → Bool
  | .blank _ => true
  | _ => false

/-- Whether two line feeds stand in some fillers with nothing but blanks between them. -/
def hasEmptyLine : List Filler → Bool
  | [] => false
  | .newline :: rest => (rest.dropWhile isBlankFiller).head? = some .newline || hasEmptyLine rest
  | _ :: rest => hasEmptyLine rest

/-- The comments among some fillers, which stand behind others, without those that trail the token
before and, if empty lines detach, without those in front of an empty line. -/
def attached (config : DocConfig) (isTrailing : List Filler → Bool) (before : List Filler) :
    List Filler → List (List Char)
  | [] => []
  | f :: after =>
    let later := attached config isTrailing (before ++ [f]) after
    match commentText? f with
    | none => later
    | some text =>
      if isTrailing before || (config.blankLineDetaches && hasEmptyLine after) then later
      else text :: later

/-- All comments if they are joined, otherwise the last one. -/
def selected (config : DocConfig) (comments : List (List Char)) : List (List Char) :=
  if config.joinConsecutive then comments else comments.getLast?.toList

/-- The documentation of a token behind these fillers. -/
def ofFillers (config : DocConfig) (isTrailing : List Filler → Bool) (fillers : List Filler) :
    Option String :=
  match selected config (attached config isTrailing [] fillers) with
  | [] => none
  | comments => some (String.ofList (joinLines comments))

/-- Whether what follows some fillers begins on the line on which they begin. -/
def staysOnLine (before : List Filler) : Bool :=
  (Position.start.advance (before.flatMap Filler.spelling)).line = Position.start.line

/-- Whether there is no line feed outside comments. -/
def crossesNoNewline (before : List Filler) : Bool :=
  .newline ∉ before

/-! ### Gathering -/

/-- The empty lines that some fillers have behind so many line feeds. -/
private def hasEmptyLineBehind (newlines : Nat) (fillers : List Filler) : Bool :=
  if newlines = 0 then hasEmptyLine fillers else hasEmptyLine (.newline :: fillers)

private theorem hasEmptyLineBehind_newline (newlines : Nat) (fillers : List Filler) :
    hasEmptyLineBehind newlines (.newline :: fillers) =
      (decide (1 ≤ newlines) || hasEmptyLineBehind (newlines + 1) fillers) := by
  unfold hasEmptyLineBehind
  -- Only if there was a line feed before does this one leave an empty line.
  by_cases none : newlines = 0
  · simp [none]
  · have some : 1 ≤ newlines := Nat.one_le_iff_ne_zero.mpr none
    simp [none, some, hasEmptyLine, isBlankFiller]

private theorem hasEmptyLineBehind_blank (newlines : Nat) (c : Char) (fillers : List Filler) :
    hasEmptyLineBehind newlines (.blank c :: fillers) = hasEmptyLineBehind newlines fillers := by
  unfold hasEmptyLineBehind
  split
  · rfl
  · simp [hasEmptyLine, List.dropWhile_cons, isBlankFiller]

private theorem hasEmptyLineBehind_comment {f : Filler} {text : List Char}
    (comment : commentText? f = some text) (newlines : Nat) (fillers : List Filler) :
    hasEmptyLineBehind newlines (f :: fillers) = hasEmptyLineBehind 0 fillers := by
  cases f with
  | newline => cases comment
  | blank c => cases comment
  | lineComment | blockComment =>
    unfold hasEmptyLineBehind
    split <;> simp [hasEmptyLine, isBlankFiller]

private theorem step_comment {config : DocConfig} {f : Filler} {text : List Char}
    (comment : commentText? f = some text) (g : Gathering) :
    g.step config f = g.comment config text := by
  cases f with
  | newline => cases comment
  | blank c => cases comment
  | lineComment | blockComment => cases comment; rfl

/-- Once the last of some comments is selected, the others make no difference. -/
private theorem selected_append (config : DocConfig) (comments later : List (List Char)) :
    selected config (selected config comments ++ later) = selected config (comments ++ later) := by
  unfold selected
  split
  · rfl
  · rw [List.getLast?_append, List.getLast?_append]
    cases comments.getLast? <;> simp

private theorem comments_comment (config : DocConfig) (g : Gathering) (text : List Char) :
    (g.comment config text).comments =
      if g.onTokenLine then g.comments else selected config (g.comments ++ [text]) := by
  simp only [Gathering.comment, selected]
  split
  · rfl
  · split <;> simp

/-- The comments of a state that the fillers behind it leave. -/
private def remaining (config : DocConfig) (g : Gathering) (fillers : List Filler) :
    List (List Char) :=
  if config.blankLineDetaches && hasEmptyLineBehind g.newlines fillers then [] else g.comments

/-- A state is one behind some fillers: it knows whether a comment would trail the token before, and
keeps no comments but those that are selected. -/
private structure IsBehind (config : DocConfig) (isTrailing : List Filler → Bool)
    (before : List Filler) (g : Gathering) : Prop where
  line : g.onTokenLine = isTrailing before
  kept : selected config g.comments = g.comments

section Gather

variable {config : DocConfig} {isTrailing : List Filler → Bool}
  (follows : ∀ before f, isTrailing (before ++ [f]) = (isTrailing before && f ≠ .newline))

private theorem isBehind_start :
    IsBehind config isTrailing [] (Gathering.start (isTrailing [])) where
  line := rfl
  kept := by simp [Gathering.start, selected]

/-- One more piece of filler is accounted for in the state instead of among what is to come. -/
private theorem IsBehind.selected_step {before : List Filler} {g : Gathering}
    (h : IsBehind config isTrailing before g) (f : Filler) (fillers : List Filler) :
    selected config (remaining config (g.step config f) fillers ++
        attached config isTrailing (before ++ [f]) fillers) =
      selected config (remaining config g (f :: fillers) ++
        attached config isTrailing before (f :: fillers)) := by
  rw [attached]
  cases comment : commentText? f with
  | some text =>
    have noNewline : (g.comment config text).newlines = 0 := rfl
    have behind : hasEmptyLineBehind 0 fillers = hasEmptyLine fillers := rfl
    simp only [remaining, step_comment comment, hasEmptyLineBehind_comment comment, noNewline,
      behind, comments_comment, h.line]
    by_cases detached : (config.blankLineDetaches && hasEmptyLine fillers) = true
    · simp [detached]
    · by_cases trailing : isTrailing before = true
      · simp [detached, trailing]
      · -- The new comment takes the place of the earlier ones, or is joined to them.
        simp [detached, trailing, selected_append]
  | none =>
    cases f with
    | newline =>
      simp only [remaining, hasEmptyLineBehind_newline, Gathering.step]
      by_cases detaches : config.blankLineDetaches = true
      · by_cases second : 1 ≤ g.newlines <;> simp [detaches, second]
      · simp [detaches]
    | blank c =>
      simp only [remaining, hasEmptyLineBehind_blank, Gathering.step]
      rfl
    | lineComment text => cases comment
    | blockComment text => cases comment

include follows

private theorem IsBehind.step {before : List Filler} {g : Gathering}
    (h : IsBehind config isTrailing before g) (f : Filler) :
    IsBehind config isTrailing (before ++ [f]) (g.step config f) := by
  cases comment : commentText? f with
  | some text =>
    have other : f ≠ .newline := by
      rintro rfl
      cases comment
    rw [step_comment comment]
    refine ⟨by simp [Gathering.comment, h.line, follows, other], ?_⟩
    rw [comments_comment]
    split
    · exact h.kept
    · simpa using selected_append config (g.comments ++ [text]) []
  | none =>
    cases f with
    | newline =>
      refine ⟨by simp [Gathering.step, follows], ?_⟩
      simp only [Gathering.step]
      split
      · simp [selected]
      · exact h.kept
    | blank c => exact ⟨by simp [Gathering.step, follows, h.line], h.kept⟩
    | lineComment text => cases comment
    | blockComment text => cases comment

/-- What is gathered from some fillers is what they leave of the comments so far and the comments
attached among them. -/
private theorem comments_foldl_step (fillers : List Filler) {before : List Filler} {g : Gathering}
    (h : IsBehind config isTrailing before g) :
    (fillers.foldl (Gathering.step config) g).comments =
      selected config (remaining config g fillers ++ attached config isTrailing before fillers) := by
  induction fillers generalizing before g with
  | nil => simp [remaining, hasEmptyLineBehind, hasEmptyLine, attached, h.kept]
  | cons f fillers ih =>
    rw [List.foldl_cons, ih (h.step follows f)]
    exact h.selected_step f fillers

private theorem doc?_gather (fillers : List Filler) :
    (gather config (isTrailing []) fillers).doc? = ofFillers config isTrailing fillers := by
  have comments := comments_foldl_step follows fillers (@isBehind_start config isTrailing)
  have none : remaining config (Gathering.start (isTrailing [])) fillers = [] := ite_self []
  rw [none, List.nil_append] at comments
  rw [gather, Gathering.doc?, comments]
  rfl

end Gather

/-- The first token of a text has no token in front of it, so no comment trails one. -/
theorem doc?_gather_first (config : DocConfig) (fillers : List Filler) :
    (gather config false fillers).doc? = ofFillers config (fun _ => false) fillers :=
  @doc?_gather config (fun _ => false) (fun _ _ => rfl) fillers

theorem doc?_gather_later (config : DocConfig) (fillers : List Filler) :
    (gather config true fillers).doc? = ofFillers config crossesNoNewline fillers := by
  refine @doc?_gather config crossesNoNewline (fun before f => ?_) fillers
  simp [crossesNoNewline, eq_comm, Bool.decide_and]

end Documentation

/-! ### The tokens of a text -/

open Documentation

/-- The tokens of a text up to a fault, each with the filler in front of it; the last one is the end
mark if there is no fault. -/
def filledTokens (text : List Char) : List (List Filler × Token) :=
  match _found : (firstScan text).outcome with
  | .error _ => []
  | .ok t =>
    if _more : t = .eof then [((Filler.scan text).1, .eof)]
    else ((Filler.scan text).1, t) :: filledTokens (firstScan text).rest
termination_by text.length
decreasing_by exact length_rest_firstScan_lt _found _more

theorem filledTokens_of_token {text : List Char} {t : Token}
    (found : (firstScan text).outcome = .ok t) (more : t ≠ .eof) :
    filledTokens text = ((Filler.scan text).1, t) :: filledTokens (firstScan text).rest := by
  rw [filledTokens]
  split
  next failed => cases found.symm.trans failed
  next found' =>
    cases found.symm.trans found'
    rw [dif_neg more]

theorem filledTokens_of_eof {text : List Char} (found : (firstScan text).outcome = .ok .eof) :
    filledTokens text = [((Filler.scan text).1, .eof)] := by
  rw [filledTokens]
  split
  next failed => cases found.symm.trans failed
  next found' =>
    cases found.symm.trans found'
    rw [dif_pos rfl]

theorem filledTokens_of_fault {text : List Char} {fault : Fault}
    (failed : (firstScan text).outcome = .error fault) : filledTokens text = [] := by
  rw [filledTokens]
  split
  next => rfl
  next found => cases failed.symm.trans found

/-- The tokens that a lexer yields, the end mark being the last. -/
def TokenStream.yielded (s : TokenStream) : List Located :=
  match s.ending with
  | .finished endMark => s.tokens ++ [endMark]
  | .failed _ => s.tokens

/-- Tokens with the documentation that the fillers in front of them are. -/
def documentedTokens (config : DocConfig) (isTrailing : List Filler → Bool)
    (tokens : List (List Filler × Token)) : List (Token × Option String) :=
  tokens.map fun filled => (filled.2, ofFillers config isTrailing filled.1)

private theorem Lexer.yielded_run {isTrailing : List Filler → Bool} {l : Lexer}
    (first : ∀ fillers, (gather l.config l.onTokenLine fillers).doc? =
      ofFillers l.config isTrailing fillers) :
    l.run.yielded.map (fun t => (t.token, t.doc)) =
      documentedTokens l.config isTrailing ((filledTokens l.rest).take 1) ++
        documentedTokens l.config crossesNoNewline ((filledTokens l.rest).drop 1) := by
  -- How the lexer began matters for the first token only.
  have doc : l.documentation = ofFillers l.config isTrailing (Filler.scan l.rest).1 := first _
  induction text : l.rest using text_induction generalizing l isTrailing with
  | last _ noToken =>
    subst text
    cases outcome : (firstScan l.rest).outcome with
    | error fault =>
      rw [run_of_fault outcome, filledTokens_of_fault outcome]
      rfl
    | ok t =>
      obtain rfl := noToken t outcome
      rw [run_of_eof outcome, filledTokens_of_eof outcome]
      simp [TokenStream.yielded, documentedTokens, doc]
  | token _ t found more ih =>
    subst text
    -- From the second token on there is a token in front of each.
    have later := @ih crossesNoNewline l.behindToken (doc?_gather_later l.config)
      (doc?_gather_later l.config _) rfl
    have parts : documentedTokens l.config crossesNoNewline (filledTokens (firstScan l.rest).rest) =
        l.behindToken.run.yielded.map (fun t => (t.token, t.doc)) := by
      rw [later]
      simp only [documentedTokens, ← List.map_append, List.take_append_drop]
      rfl
    rw [run_of_token found more, filledTokens_of_token found more]
    simp only [List.take_succ_cons, List.take_zero, List.drop_succ_cons, List.drop_zero, parts]
    have yielded (t : Located) (s : TokenStream) :
        TokenStream.yielded ⟨t :: s.tokens, s.ending⟩ = t :: s.yielded := by
      unfold TokenStream.yielded
      cases s.ending <;> rfl
    rw [yielded]
    simp [documentedTokens, doc]

/-- Each token of a text, the end mark included, is documented by the comments attached to it: at
the first token none trails, and at a later one those trail in front of which there is no line feed
outside comments. -/
theorem TokenStream.docs_ofText (config : DocConfig) (text : List Char) :
    (ofText config text).yielded.map (fun t => (t.token, t.doc)) =
      documentedTokens config (fun _ => false) ((filledTokens text).take 1) ++
        documentedTokens config crossesNoNewline ((filledTokens text).drop 1) :=
  Lexer.yielded_run (l := .ofText config text) (doc?_gather_first config)

/-- A comment that begins on the line of the token before it, behind a block comment that begins on
the line above, is no documentation, though by lines it does not trail. -/
theorem TokenStream.docs_spanningComment :
    (ofText {} "a /* x\n */ // y\n b".toList).yielded.map (fun t => (t.token, t.doc)) =
      [(.ident "a", none), (.ident "b", none), (.eof, none)] ∧
    documentedTokens {} staysOnLine ((filledTokens "a /* x\n */ // y\n b".toList).drop 1) =
      [(.ident "b", some "y"), (.eof, none)] := by
  decide +kernel

/-! ### Lines -/

theorem Position.line_advance (p : Position) (text : List Char) :
    (p.advance text).line = p.line + text.count '\n' := by
  induction text generalizing p with
  | nil => simp
  | cons c text ih =>
    rw [advance_cons, ih, List.count_cons]
    by_cases newline : c = '\n'
    · simp [after, newline]
      omega
    · simp [after, newline]

theorem staysOnLine_eq_true_iff {before : List Filler} :
    staysOnLine before = true ↔ '\n' ∉ before.flatMap Filler.spelling := by
  rw [staysOnLine, decide_eq_true_eq, Position.line_advance, Nat.add_eq_left, List.count_eq_zero]

/-- Only a block comment of several lines takes what follows it to another line without a line feed
outside comments. -/
theorem crossesNoNewline_eq_staysOnLine {before : List Filler} (proper : ∀ f ∈ before, f.IsProper)
    (oneLine : ∀ c, .blockComment c ∈ before → '\n' ∉ c) :
    crossesNoNewline before = staysOnLine before := by
  have same : .newline ∈ before ↔ '\n' ∈ before.flatMap Filler.spelling := by
    rw [List.mem_flatMap]
    constructor
    · intro newline
      exact ⟨_, newline, List.mem_singleton_self _⟩
    · rintro ⟨f, member, inside⟩
      -- Of the fillers only line feeds and comments can hold one; a line comment stops in front of
      -- it.
      cases f with
      | newline => exact member
      | blank c =>
        have space := proper _ member
        rw [← List.mem_singleton.mp inside] at space
        cases space
      | lineComment c => exact absurd (by simpa [Filler.spelling] using inside) (proper _ member)
      | blockComment c => exact absurd (by simpa [Filler.spelling] using inside) (oneLine c member)
  rw [Bool.eq_iff_iff, staysOnLine_eq_true_iff, crossesNoNewline, decide_eq_true_eq, same]

theorem attached_congr {config : DocConfig} {isTrailing isTrailing' : List Filler → Bool}
    {before fillers : List Filler}
    (same : ∀ part, part <+: before ++ fillers → isTrailing part = isTrailing' part) :
    attached config isTrailing before fillers = attached config isTrailing' before fillers := by
  induction fillers generalizing before with
  | nil => rfl
  | cons f after ih =>
    have later := @ih (before ++ [f]) (by simpa using same)
    rw [attached, attached, later, same before (List.prefix_append _ _)]

/-- Where all block comments stand on one line, the comments that trail a token are the ones that
begin on its line. -/
theorem ofFillers_eq_of_oneLine {config : DocConfig} {text : List Char}
    (oneLine : ∀ c, .blockComment c ∈ (Filler.scan text).1 → '\n' ∉ c) :
    ofFillers config crossesNoNewline (Filler.scan text).1 =
      ofFillers config staysOnLine (Filler.scan text).1 := by
  have same : attached config crossesNoNewline [] (Filler.scan text).1 =
      attached config staysOnLine [] (Filler.scan text).1 := by
    refine attached_congr fun part leading => ?_
    refine crossesNoNewline_eq_staysOnLine (fun f member => ?_) fun c member => ?_
    · exact Filler.isProper_of_mem_scan f (leading.subset member)
    · exact oneLine c (leading.subset member)
  rw [ofFillers, ofFillers, same]

end ProtoSchema
