import ProtoSchema.Proofs.Lexing.Spelling

/-!
# Names

Which texts are read as identifiers. Behind a minus sign only two names are; a path behind one of
those is a lexical fault.
-/

namespace ProtoSchema

/-- Whether a text begins as an identifier does. -/
def startsName : List Char → Bool
  | [] => false
  | c :: rest => isIdentStart c || (c = '.' && Token.nextIs isIdentStart rest)

/-- Whether a text is an identifier without a sign. -/
def isNameText (text : List Char) : Bool :=
  startsName text && text.all isIdentChar

/-- A text that is read as an identifier. -/
def IsIdent (name : String) : Prop :=
  isNameText name.toList = true ∨ name = "-inf" ∨ name = "-nan"

instance (name : String) : Decidable (IsIdent name) :=
  inferInstanceAs (Decidable (_ ∨ _))

/-- A path behind a name that has a sign. -/
def IsSignedPath (name : String) : Prop :=
  name.toList.head? = some '-' ∧ '.' ∈ name.toList

instance (name : String) : Decidable (IsSignedPath name) :=
  inferInstanceAs (Decidable (_ ∧ _))

theorem Token.scan_of_startsName {text : List Char} (h : startsName text = true) :
    scan text = scanIdent text := by
  cases text with
  | nil => cases h
  | cons c rest =>
    simp only [startsName, Bool.or_eq_true, Bool.and_eq_true, decide_eq_true_eq] at h
    by_cases start : isIdentStart c = true
    · obtain ⟨noMark, noQuote⟩ := not_mark_of_isIdentChar (isIdentChar_of_isIdentStart start)
      simp only [scan, noMark, if_neg noQuote, if_pos start]
    · obtain ⟨rfl, follows⟩ := h.resolve_left start
      simp only [scan, Mark.ofChar?, if_neg start, follows]
      simp

theorem startsName_append {text : List Char} (h : startsName text = true) (rest : List Char) :
    startsName (text ++ rest) = true := by
  cases text with
  | nil => cases h
  | cons c text =>
    cases text with
    | nil => simpa [startsName, Token.nextIs] using .inl (by simpa [startsName, Token.nextIs] using h)
    | cons d text => exact h

theorem isSpelling_name {text : List Char} (h : isNameText text = true) :
    IsSpelling text (.ident (String.ofList text)) := by
  simp only [isNameText, Bool.and_eq_true, List.all_eq_true] at h
  obtain ⟨start, inside⟩ := h
  refine ⟨nofun, fun rest behind => ?_⟩
  obtain ⟨taken, left⟩ := takeWhile_append_of_head? inside behind
  rw [Token.scan_of_startsName (startsName_append start rest), Token.scanIdent, taken, left]

/-- What is taken for an identifier is one. -/
theorem isNameText_takeWhile {text : List Char} (h : startsName text = true) :
    isNameText (text.takeWhile isIdentChar) = true := by
  have starts : startsName (text.takeWhile isIdentChar) = true := by
    cases text with
    | nil => cases h
    | cons c rest =>
      simp only [startsName, Bool.or_eq_true, Bool.and_eq_true, decide_eq_true_eq] at h
      rcases h with start | ⟨rfl, follows⟩
      · simp [Token.isIdentChar_of_isIdentStart start, startsName, start]
      · have point : isIdentChar '.' = true := rfl
        cases rest with
        | nil => cases follows
        | cons d rest =>
          have start : isIdentStart d = true := follows
          simp [point, Token.isIdentChar_of_isIdentStart start, startsName, Token.nextIs, start]
  rw [isNameText, starts, Bool.true_and]
  exact List.all_takeWhile

private theorem isAlpha_facts {c : Char} (h : c.isAlpha = true) :
    isIdentChar c = true ∧ c.isDigit = false ∧ c ≠ '.' := by
  refine ⟨by simp [isIdentChar, Char.isAlphanum, h], ?_, ?_⟩
  · rw [Bool.eq_false_iff]
    intro digit
    have := not_isIdentStart_of_isDigit digit
    simp [isIdentStart, h] at this
  · rintro rfl
    revert h
    decide

/-- A minus sign in front of a letter is read together with all characters of the name. -/
theorem Token.scan_negativeName {c : Char} {name rest : List Char} (letter : c.isAlpha = true)
    (inside : ∀ d ∈ name, isIdentChar d = true) (behind : IsApart rest) :
    scan ('-' :: c :: name ++ rest) =
      if String.ofList (c :: name) = "inf" ∨ String.ofList (c :: name) = "nan" then
        .found (.ident (String.ofList ('-' :: c :: name))) ('-' :: c :: name) rest
      else .failed (.illegalCharacter '-') ('-' :: c :: name) rest := by
  obtain ⟨identChar, noDigit, noPoint⟩ := isAlpha_facts letter
  have whole : ∀ d ∈ c :: name, isIdentChar d = true :=
    List.forall_mem_cons.mpr ⟨identChar, inside⟩
  obtain ⟨taken, left⟩ := takeWhile_append_of_head? whole behind
  have next : scan ('-' :: (c :: name ++ rest)) = scanNegativeName (c :: name ++ rest) := by
    have letterNext : nextIs Char.isAlpha (c :: (name ++ rest)) = true := letter
    have noNumber : nextIs (fun d => d.isDigit || d = '.') (c :: (name ++ rest)) = false := by
      simp [nextIs, noDigit, noPoint]
    have sign : Mark.ofChar? '-' = none ∧ isIdentStart '-' = false ∧ Char.isDigit '-' = false := by
      decide
    simp [scan, sign, letterNext, noNumber]
  rw [List.cons_append, List.cons_append, ← List.cons_append, next, scanNegativeName, taken, left]

/-- A minus sign is read only as part of two names. -/
theorem Token.of_scanNegativeName_eq_ok {rest : List Char} {t : Token}
    (h : (scanNegativeName rest).outcome = .ok t) :
    scanNegativeName rest = .found t ('-' :: rest.takeWhile isIdentChar)
        (rest.dropWhile isIdentChar) ∧
      t = .ident (String.ofList ('-' :: rest.takeWhile isIdentChar)) ∧
      (String.ofList ('-' :: rest.takeWhile isIdentChar) = "-inf" ∨
        String.ofList ('-' :: rest.takeWhile isIdentChar) = "-nan") := by
  unfold scanNegativeName at h ⊢
  simp only at h ⊢
  split at h
  next known =>
    rw [if_pos known]
    cases h
    refine ⟨rfl, rfl, ?_⟩
    rcases known with known | known
    · exact .inl (by rw [String.ofList_cons, known]; rfl)
    · exact .inr (by rw [String.ofList_cons, known]; rfl)
  next => cases h

theorem isSpelling_negative {name : String} (h : name = "-inf" ∨ name = "-nan") :
    IsSpelling name.toList (.ident name) := by
  have whole (c : Char) (rest : List Char) (letter : c.isAlpha = true)
      (inside : ∀ d ∈ rest, isIdentChar d = true)
      (known : String.ofList (c :: rest) = "inf" ∨ String.ofList (c :: rest) = "nan") :
      IsSpelling ('-' :: c :: rest) (.ident (String.ofList ('-' :: c :: rest))) := by
    refine ⟨nofun, fun _ behind => ?_⟩
    rw [Token.scan_negativeName letter inside behind, if_pos known]
  rcases h with rfl | rfl
  · exact whole 'i' ['n', 'f'] rfl (List.all_eq_true.mp rfl) (.inl rfl)
  · exact whole 'n' ['a', 'n'] rfl (List.all_eq_true.mp rfl) (.inr rfl)

/-- Identifiers are read as what they are. -/
theorem IsIdent.isSpelling {name : String} (h : IsIdent name) :
    IsSpelling name.toList (.ident name) := by
  rcases h with plain | negative
  · simpa using isSpelling_name plain
  · exact isSpelling_negative negative

theorem IsIdent.ne_empty {name : String} (h : IsIdent name) : name ≠ "" := by
  rintro rfl
  exact absurd h (by decide)

/-- A path behind a name that has a sign is a fault. -/
theorem spells_signedPath {base path : List Char} (known : base = ['i', 'n', 'f'] ∨ base = ['n', 'a', 'n'])
    (inside : ∀ c ∈ path, isIdentChar c = true) (more : path ≠ []) :
    Spells ('-' :: base ++ path) [none] := by
  have whole (c : Char) (rest : List Char) (letter : c.isAlpha = true)
      (inside : ∀ d ∈ rest, isIdentChar d = true) (long : 3 ≤ rest.length) :
      Spells ('-' :: c :: rest) [none] := by
    intro config g text behind
    have long' : ∀ s : String, s.length = 3 → String.ofList (c :: rest) ≠ s := by
      rintro s size rfl
      simp at size
      omega
    have failed := Token.scan_negativeName letter inside behind
    rw [if_neg (not_or.mpr ⟨long' _ rfl, long' _ rfl⟩)] at failed
    exact wordsFrom_fault rfl (congrArg Scan.outcome failed)
  have size := List.length_pos_iff.mpr more
  rcases known with rfl | rfl
  · exact whole 'i' _ (by decide) (by simpa using ⟨by decide, by decide, inside⟩) (by simp; omega)
  · exact whole 'n' _ (by decide) (by simpa using ⟨by decide, by decide, inside⟩) (by simp; omega)

end ProtoSchema
