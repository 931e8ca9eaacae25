import ProtoSchema.Proofs.Lexing.Lines
import ProtoSchema.Proofs.Lexing.Name

/-!
# What a text is read as

Whatever a text is, the words that are read from it can be written: names are identifiers, numbers
are within bounds, and no line of their documentation ends in a blank.
-/

namespace ProtoSchema

open Documentation

/-! ### Tokens -/

/-- A token that some text is read as. -/
def Token.IsShaped : Token → Prop
  | .ident name => IsIdent name
  | .int n => n.natAbs < Numeral.integerBound
  | .float x => x.isFinite = true
  | _ => True

/-- A number from its digits is below the bound of integers. -/
private theorem readInteger_lt {text : String} {base value n : Nat} {digits : List Char}
    (small : value < Numeral.integerBound)
    (h : Numeral.readInteger text base value digits = .ok n) : n < Numeral.integerBound := by
  induction digits generalizing value with
  | nil =>
    cases h
    exact small
  | cons c rest ih =>
    rw [Numeral.readInteger] at h
    split at h
    next =>
      dsimp only at h
      split at h
      next below => exact ih below h
      next => cases h
    next => cases h

private theorem isShaped_integer {negative : Bool} {text : String} {base : Nat}
    {digits : List Char} {t : Token} (h : Numeral.integer negative text base digits = .ok t) :
    t.IsShaped := by
  unfold Numeral.integer at h
  cases read : Numeral.readInteger text base 0 digits with
  | error cause =>
    rw [read] at h
    cases h
  | ok n =>
    rw [read] at h
    cases h
    have small := readInteger_lt (by decide) read
    cases negative
    · exact small
    · simpa [Token.IsShaped] using small

private theorem isShaped_numeral {negative : Bool} {text : String} {n : Numeral} {t : Token}
    (h : n.token negative text = .ok t) : t.IsShaped := by
  have float {whole fraction : List Char} {exponent : Int}
      (h : Numeral.float negative text whole fraction exponent = .ok t) : t.IsShaped := by
    unfold Numeral.float at h
    simp only at h
    split at h
    next => cases h
    next =>
      split at h
      next finite =>
        cases h
        exact finite
      next => cases h
  unfold Numeral.token at h
  split at h
  next =>
    split at h
    next => cases h
    next => exact isShaped_integer h
  next => split at h <;> exact isShaped_integer h
  next => exact float h

private theorem isShaped_scanBehind {sign cs : List Char} {t : Token}
    (h : (Numeral.scanBehind sign cs).outcome = .ok t) : t.IsShaped := by
  unfold Numeral.scanBehind at h
  simp only at h
  split at h
  next =>
    split at h
    next token =>
      cases h
      exact isShaped_numeral token
    next => cases h
  next => cases h

private theorem isShaped_scanNumber {cs : List Char} {t : Token}
    (h : (scanNumber cs).outcome = .ok t) : t.IsShaped := by
  unfold scanNumber at h
  split at h <;> exact isShaped_scanBehind h

private theorem isShaped_scanIdent {cs : List Char} {t : Token} (start : startsName cs = true)
    (h : (Token.scanIdent cs).outcome = .ok t) : t.IsShaped := by
  cases h
  refine .inl ?_
  rw [String.toList_ofList]
  exact isNameText_takeWhile start

private theorem isShaped_scanNegativeName {rest : List Char} {t : Token}
    (h : (Token.scanNegativeName rest).outcome = .ok t) : t.IsShaped := by
  obtain ⟨-, rfl, known⟩ := Token.of_scanNegativeName_eq_ok h
  exact .inr known

private theorem isShaped_scanLiteral {quote : Char} {rest : List Char} {t : Token}
    (h : (Literal.scan quote rest).outcome = .ok t) : t.IsShaped := by
  unfold Literal.scan at h
  simp only at h
  split at h
  next =>
    cases h
    trivial
  next => cases h
  next => cases h

theorem Token.isShaped_of_scan {text : List Char} {t : Token}
    (h : (scan text).outcome = .ok t) : t.IsShaped := by
  revert h
  fun_cases scan text with
  | case1 | case2 =>
    intro h
    cases h
    trivial
  | case3 => exact isShaped_scanLiteral
  | case4 c rest noMark noQuote start => exact isShaped_scanIdent (by simp [startsName, start])
  | case5 c rest noMark noQuote noStart start =>
    exact isShaped_scanIdent (by simp [startsName, start])
  | case6 | case7 | case8 => exact isShaped_scanNumber
  | case9 => exact isShaped_scanNegativeName
  | case10 =>
    intro h
    cases h

/-! ### Documentation -/

theorem splitLines_append_newline (text rest : List Char) :
    splitLines (text ++ '\n' :: rest) = splitLines text ++ splitLines rest := by
  induction text with
  | nil => simp [splitLines]
  | cons c text ih =>
    rw [List.cons_append, splitLines, splitLines, ih]
    split
    next => rfl
    next =>
      cases lines : splitLines text with
      | nil => exact absurd lines (splitLines_ne_nil text)
      | cons line lines => rfl

theorem splitLines_of_not_mem {text : List Char} (h : '\n' ∉ text) : splitLines text = [text] := by
  induction text with
  | nil => rfl
  | cons c text ih =>
    have other : c ≠ '\n' := fun same => h (same ▸ List.mem_cons_self)
    rw [splitLines, if_neg other, ih fun inside => h (List.mem_cons_of_mem _ inside)]

/-- Texts put together are trimmed if each of them is. -/
theorem isTrimmed_joinLines {texts : List (List Char)}
    (each : ∀ text ∈ texts, IsTrimmed (String.ofList text)) :
    IsTrimmed (String.ofList (joinLines texts)) := by
  induction texts with
  | nil => exact isTrimmed_empty
  | cons text texts ih =>
    obtain ⟨first, rest⟩ := List.forall_mem_cons.mp each
    cases texts with
    | nil => simpa [joinLines] using first
    | cons next texts =>
      have whole : joinLines (text :: next :: texts) =
          text ++ '\n' :: joinLines (next :: texts) := by
        simp [joinLines, List.intercalate]
      unfold IsTrimmed at first ih ⊢
      rw [String.toList_ofList] at first ih ⊢
      rw [whole, splitLines_append_newline]
      exact List.forall_mem_append.mpr ⟨first, ih rest⟩

theorem mem_of_mem_dropTailWhile {α : Type} {p : α → Bool} {xs : List α} {x : α}
    (h : x ∈ dropTailWhile p xs) : x ∈ xs := by
  induction xs with
  | nil => exact h
  | cons y xs ih =>
    rw [dropTailWhile] at h
    split at h
    next =>
      split at h
      next => cases h
      next =>
        cases List.mem_singleton.mp h
        exact List.mem_cons_self
    next =>
      rcases List.mem_cons.mp h with rfl | later
      · exact List.mem_cons_self
      · exact List.mem_cons_of_mem _ (ih later)

theorem not_of_mem_getLast?_dropTailWhile {α : Type} {p : α → Bool} {xs : List α} :
    ∀ x ∈ (dropTailWhile p xs).getLast?, p x = false := by
  induction xs with
  | nil => simp [dropTailWhile]
  | cons y xs ih =>
    rw [dropTailWhile]
    split
    next =>
      split
      next => simp
      next other =>
        intro x last
        cases last
        simpa using other
    next kept nonempty =>
      intro x last
      rw [List.getLast?_cons, Option.mem_some] at last
      exact ih x (by
        obtain ⟨z, zs, same⟩ := List.exists_cons_of_ne_nil nonempty
        rw [same] at last ⊢
        simpa [List.getLast?_cons] using last)

/-- A line without its trailing blanks. -/
theorem isTrimmed_trimEnd {line : List Char} (noNewline : '\n' ∉ line) :
    IsTrimmed (String.ofList (trimEnd line)) := by
  have single : splitLines (trimEnd line) = [trimEnd line] :=
    splitLines_of_not_mem fun inside => noNewline (mem_of_mem_dropTailWhile inside)
  unfold IsTrimmed
  rw [String.toList_ofList, single]
  exact List.forall_mem_cons.mpr ⟨not_of_mem_getLast?_dropTailWhile, nofun⟩

theorem mem_of_mem_dropOne {c d : Char} {text : List Char}
    (h : d ∈ dropOne c text) : d ∈ text := by
  cases text with
  | nil => exact h
  | cons e text =>
    rw [dropOne] at h
    split at h
    next => exact List.mem_cons_of_mem _ h
    next => exact h

theorem isTrimmed_ofLineComment {text : List Char} (noNewline : '\n' ∉ text) :
    IsTrimmed (String.ofList (ofLineComment text)) :=
  isTrimmed_trimEnd fun inside =>
    noNewline ((List.dropWhile_sublist _).mem (mem_of_mem_dropOne inside))

theorem isTrimmed_ofBlockComment (text : List Char) :
    IsTrimmed (String.ofList (ofBlockComment text)) := by
  apply isTrimmed_joinLines
  intro line member
  have kept := (List.dropWhile_sublist _).mem (mem_of_mem_dropTailWhile member)
  obtain ⟨whole, split, rfl⟩ := List.mem_map.mp kept
  have noNewline := not_mem_of_mem_splitLines split
  apply isTrimmed_trimEnd
  intro inside
  -- Blanks and stars are taken from a line, but nothing is put in.
  have trimmed : '\n' ∈ trim whole := mem_of_mem_dropOne (mem_of_mem_dropOne inside)
  exact noNewline ((List.dropWhile_sublist _).mem (mem_of_mem_dropTailWhile trimmed))

/-- A state of gathering in which no line of a comment ends in a blank. -/
def Documentation.Gathering.IsTrimmed (g : Gathering) : Prop :=
  ∀ text ∈ g.comments, ProtoSchema.IsTrimmed (String.ofList text)

namespace Documentation.Gathering

variable {config : DocConfig} {g : Gathering}

theorem isTrimmed_start (onTokenLine : Bool) : (start onTokenLine).IsTrimmed := nofun

theorem IsTrimmed.comment {text : List Char} (h : g.IsTrimmed)
    (trimmed : ProtoSchema.IsTrimmed (String.ofList text)) :
    (g.comment config text).IsTrimmed := by
  unfold IsTrimmed Gathering.comment
  dsimp only
  split
  next => exact h
  split
  next => exact List.forall_mem_append.mpr ⟨h, List.forall_mem_cons.mpr ⟨trimmed, nofun⟩⟩
  next => exact List.forall_mem_cons.mpr ⟨trimmed, nofun⟩

/-- A piece of filler that a text begins with leaves the comments trimmed. -/
theorem IsTrimmed.step {f : Filler} {text rest : List Char} (h : g.IsTrimmed)
    (first : Filler.first? text = some (f, rest)) : (g.step config f).IsTrimmed := by
  cases f with
  | newline =>
    unfold IsTrimmed Gathering.step
    dsimp only
    split
    next => exact nofun
    next => exact h
  | blank => exact h
  | lineComment line =>
    refine h.comment (isTrimmed_ofLineComment fun inside => ?_)
    unfold Filler.first? at first
    split at first
    case h_3 rest =>
      cases first
      -- A line comment was cut off in front of the line feed.
      have kept := List.all_eq_true.mp List.all_takeWhile '\n' inside
      simp at kept
    case h_4 =>
      obtain ⟨_, _, same⟩ := Option.map_eq_some_iff.mp first
      cases same
    case h_5 =>
      split at first <;> cases first
    all_goals cases first
  | blockComment text => exact h.comment (isTrimmed_ofBlockComment text)

theorem IsTrimmed.scan (h : g.IsTrimmed) (text : List Char) :
    ((Filler.scan text).1.foldl (Gathering.step config) g).IsTrimmed := by
  fun_induction Filler.scan text generalizing g with
  | case1 => exact h
  | case2 text f rest first fillers after same ih =>
    rw [same] at ih
    exact ih (h.step first)

theorem IsTrimmed.doc (h : g.IsTrimmed) : ProtoSchema.IsTrimmed g.doc := by
  unfold Gathering.doc Gathering.doc?
  split
  next => exact isTrimmed_empty
  next => exact isTrimmed_joinLines h

end Documentation.Gathering

/-! ### Words -/

/-- A word that is read from some text. -/
structure Word.IsShaped (w : Word) : Prop where
  token : w.token.IsShaped
  doc : IsTrimmed w.doc

theorem isShaped_of_wordsFrom {config : DocConfig} {g : Gathering} {text : List Char}
    {ws : List Word} (trimmed : g.IsTrimmed) (h : wordsFrom config g text = some ws) :
    ∀ w ∈ ws, w.IsShaped := by
  fun_induction wordsFrom config g text generalizing ws with
  | case1 g text f rest first ih => exact ih (trimmed.step first) h
  | case2 => cases h
  | case3 => cases h
  | case4 =>
    cases h
    exact List.forall_mem_nil _
  | case5 g text noFiller noComment t found more ih =>
    obtain ⟨rest, read, rfl⟩ := Option.map_eq_some_iff.mp h
    have later := ih (Gathering.isTrimmed_start true) read
    exact List.forall_mem_cons.mpr ⟨⟨Token.isShaped_of_scan found, trimmed.doc⟩, later⟩

/-- All words of a text are such as can be written. -/
theorem TokenStream.isShaped_of_mem_words {config : DocConfig} {text : List Char} {ws : List Word}
    (h : (ofText config text).words? = some ws) : ∀ w ∈ ws, w.IsShaped :=
  isShaped_of_wordsFrom (Gathering.isTrimmed_start false) ((Lexer.words?_run _).symm.trans h)

end ProtoSchema
