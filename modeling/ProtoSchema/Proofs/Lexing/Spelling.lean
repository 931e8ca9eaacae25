import ProtoSchema.Proofs.Lexing.Words

/-!
# Texts and the tokens they spell

A text spells tokens if they are read from it wherever it stands, as long as no character follows
that could belong to a name or a number. In the place of a token there may be a fault, at which
reading ends.
-/

namespace ProtoSchema

open Documentation

/-! ### What follows a token -/

/-- A text that does not go on with a character of a name or a number. -/
def IsApart (text : List Char) : Prop := ∀ c ∈ text.head?, isIdentChar c = false

theorem isApart_nil : IsApart [] := nofun

@[simp] theorem isApart_cons {c : Char} {text : List Char} :
    IsApart (c :: text) ↔ isIdentChar c = false := by
  simp [IsApart]

theorem IsApart.append {text rest : List Char} (first : IsApart text) (second : IsApart rest) :
    IsApart (text ++ rest) := by
  cases text with
  | nil => exact second
  | cons c text => exact isApart_cons.mpr (isApart_cons.mp first)

/-- What satisfies `p` is taken up to a text that does not go on so. -/
theorem takeWhile_append_of_head? {p : Char → Bool} {text rest : List Char}
    (inside : ∀ c ∈ text, p c = true) (behind : ∀ c ∈ rest.head?, p c = false) :
    (text ++ rest).takeWhile p = text ∧ (text ++ rest).dropWhile p = rest := by
  rw [List.takeWhile_append_of_pos inside, List.dropWhile_append_of_pos inside]
  cases rest with
  | nil => simp
  | cons c rest =>
    have stop : p c = false := behind c rfl
    simp [stop]

theorem IsApart.eq_false {p : Char → Bool} {rest : List Char} (behind : IsApart rest)
    (outside : ∀ c, p c = true → isIdentChar c = true) : ∀ c ∈ rest.head?, p c = false := by
  intro c first
  rw [Bool.eq_false_iff]
  intro h
  have := behind c first
  rw [outside c h] at this
  cases this

/-- A character of a name or a number is neither a mark nor a quote. -/
theorem not_mark_of_isIdentChar {c : Char} (h : isIdentChar c = true) :
    Mark.ofChar? c = none ∧ ¬ (c = '"' ∨ c = '\'') := by
  constructor
  · cases found : Mark.ofChar? c with
    | none => rfl
    | some m =>
      have := Mark.char_of_ofChar? found
      subst this
      revert h
      cases m <;> decide
  · rintro (rfl | rfl) <;> revert h <;> decide

theorem not_isIdentStart_of_isDigit {c : Char} (digit : c.isDigit = true) :
    isIdentStart c = false := by
  rw [Bool.eq_false_iff]
  intro h
  delta isIdentStart Char.isAlpha Char.isUpper Char.isLower at h
  simp only [Char.isDigit, Bool.or_eq_true, Bool.and_eq_true, decide_eq_true_eq, ge_iff_le,
    UInt32.le_iff_toNat_le] at h digit
  have nine : '9'.val.toNat = 57 := rfl
  have upper : 'A'.val.toNat = 65 := rfl
  have lower : 'a'.val.toNat = 97 := rfl
  rcases h with (h | h) | rfl
  · omega
  · omega
  · exact absurd digit.2 (by decide)

/-! ### Spelled tokens -/

/-- What stands in the place of a token: the token or, if it is none, a fault. -/
abbrev Piece := Option Token

/-- The words of a text behind some tokens that have been read; a fault among them ends reading. -/
def wordsBehind (config : DocConfig) (g : Gathering) (rest : List Char) :
    List Piece → Option (List Word)
  | [] => wordsFrom config g rest
  | piece :: pieces =>
    piece.bind fun t => (wordsBehind config (.start true) rest pieces).map (⟨t, g.doc⟩ :: ·)

theorem exists_words_of_tokens (config : DocConfig) (g : Gathering) (ts : List Token) :
    ∃ words, wordsBehind config g [] (ts.map some) = some words ∧ words.map Word.token = ts := by
  induction ts generalizing g with
  | nil => exact ⟨[], wordsFrom_nil, rfl⟩
  | cons t ts ih =>
    obtain ⟨words, found, same⟩ := ih (.start true)
    exact ⟨⟨t, g.doc⟩ :: words, by simp [wordsBehind, found], by simp [same]⟩

/-- A text from which these tokens are read, or tokens up to a fault. -/
def Spells (text : List Char) (pieces : List Piece) : Prop :=
  ∀ config g rest, IsApart rest →
    wordsFrom config g (text ++ rest) = wordsBehind config g rest pieces

/-- A text from which one token is read, whatever follows. -/
def IsFirmSpelling (text : List Char) (t : Token) : Prop :=
  t ≠ .eof ∧ ∀ rest, Token.scan (text ++ rest) = .found t text rest

/-- A text from which one token is read, if what follows is set apart. -/
def IsSpelling (text : List Char) (t : Token) : Prop :=
  t ≠ .eof ∧ ∀ rest, IsApart rest → Token.scan (text ++ rest) = .found t text rest

namespace Spells

variable {text text' : List Char} {pieces pieces' : List Piece}

theorem nil : Spells [] [] := fun _ _ _ _ => rfl

private theorem wordsBehind_append {config : DocConfig} {rest : List Char}
    (second : ∀ g, wordsFrom config g (text' ++ rest) = wordsBehind config g rest pieces')
    (pieces : List Piece) (g : Gathering) :
    wordsBehind config g (text' ++ rest) pieces =
      wordsBehind config g rest (pieces ++ pieces') := by
  induction pieces generalizing g with
  | nil => exact second g
  | cons piece pieces ih => simp only [wordsBehind, List.cons_append, ih]

theorem append (first : Spells text pieces) (second : Spells text' pieces')
    (apart : IsApart text') : Spells (text ++ text') (pieces ++ pieces') := by
  intro config g rest behind
  rw [List.append_assoc, first config g _ (apart.append behind)]
  exact wordsBehind_append (fun g => second config g rest behind) pieces g

theorem space (h : Spells text pieces) : Spells (' ' :: text) pieces := by
  intro config g rest behind
  have first : Filler.first? (' ' :: (text ++ rest)) = some (.blank ' ', text ++ rest) := rfl
  rw [List.cons_append, wordsFrom_filler first]
  exact h config g rest behind

end Spells

private theorem scan_of_startsFiller {c : Char} (rest : List Char)
    (h : c = '/' ∨ c = '\n' ∨ Filler.isSpace c = true) :
    (Token.scan (c :: rest)).outcome = .error ⟨.illegalCharacter c, []⟩ := by
  simp only [Filler.isSpace, Bool.or_eq_true, decide_eq_true_eq, or_assoc] at h
  rcases h with rfl | rfl | rfl | rfl | rfl | rfl | rfl <;> rfl

theorem noFiller_of_not_startsFiller {c : Char} (rest : List Char)
    (other : ¬ (c = '/' ∨ c = '\n' ∨ Filler.isSpace c = true)) :
    Filler.first? (c :: rest) = none ∧ Lexer.opensComment (c :: rest) = false := by
  simp only [not_or, Bool.not_eq_true] at other
  obtain ⟨noSlash, noNewline, noSpace⟩ := other
  constructor
  · unfold Filler.first?
    split <;> simp_all
  · unfold Lexer.opensComment
    split <;> simp_all

/-- Where a token is read, there is no filler. -/
theorem Token.noFiller_of_scan {text : List Char} {t : Token} (found : (scan text).outcome = .ok t) :
    Filler.first? text = none ∧ Lexer.opensComment text = false := by
  cases text with
  | nil => exact ⟨rfl, rfl⟩
  | cons c rest =>
    refine noFiller_of_not_startsFiller rest fun h => ?_
    rw [scan_of_startsFiller rest h] at found
    cases found

private theorem wordsFrom_of_scan {config : DocConfig} {g : Gathering} {text rest : List Char}
    {t : Token} (more : t ≠ .eof) (found : Token.scan (text ++ rest) = .found t text rest) :
    wordsFrom config g (text ++ rest) =
      (wordsFrom config (.start true) rest).map (⟨t, g.doc⟩ :: ·) := by
  have outcome : (Token.scan (text ++ rest)).outcome = .ok t := by rw [found]; rfl
  obtain ⟨noFiller, noComment⟩ := Token.noFiller_of_scan outcome
  rw [wordsFrom_token noFiller noComment more outcome, found]
  rfl

theorem IsSpelling.spells {text : List Char} {t : Token} (h : IsSpelling text t) :
    Spells text [some t] := fun _ _ rest behind =>
  wordsFrom_of_scan h.1 (h.2 rest behind)

theorem Spells.firm {text text' : List Char} {t : Token} {pieces : List Piece}
    (h : Spells text' pieces) (first : IsFirmSpelling text t) :
    Spells (text ++ text') (some t :: pieces) := by
  intro config g rest behind
  rw [List.append_assoc, wordsFrom_of_scan first.1 (first.2 _), h config _ rest behind]
  rfl

theorem IsFirmSpelling.isSpelling {text : List Char} {t : Token} (h : IsFirmSpelling text t) :
    IsSpelling text t :=
  ⟨h.1, fun rest _ => h.2 rest⟩

theorem isFirmSpelling_mark (m : Mark) : IsFirmSpelling [m.char] (.mark m) := by
  refine ⟨nofun, fun rest => ?_⟩
  rw [List.cons_append, Token.scan, Mark.ofChar?_char]
  rfl

theorem Spells.mark {text : List Char} {pieces : List Piece} (h : Spells text pieces) (m : Mark) :
    Spells (m.char :: text) (some (.mark m) :: pieces) :=
  h.firm (isFirmSpelling_mark m)

/-- A word in front of what is set apart from it. -/
theorem Spells.word {text text' : List Char} {t : Token} {pieces : List Piece}
    (h : Spells text' pieces) (first : IsSpelling text t) (apart : IsApart text') :
    Spells (text ++ text') (some t :: pieces) :=
  first.spells.append h apart

end ProtoSchema
