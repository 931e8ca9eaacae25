import ProtoSchema.Proofs.Grammar.Depth
import ProtoSchema.Proofs.Grammar.Value
import ProtoSchema.Proofs.Reading.Reader

/-!
# Readers of option names and values

Each reader of names and values accepts the phrases of its kind. For values that means those whose
depth is within the budget.
-/

namespace ProtoSchema.Reading

open Reader Grammar

variable {ending : Ending} {ts rest : List Located}

/-! ### Literals -/

/-- The bytes of a token that is a part of a literal. -/
def partOf? : Token → Option (List UInt8)
  | .str bytes => some bytes
  | _ => none

private theorem isLiteral_iff {ws : List Word} {bytes : List UInt8} :
    IsLiteral ws bytes ↔ ∃ first parts d ws', ws = ⟨.str first, d⟩ :: ws' ∧
      IsSequence (IsPicked partOf?) ws' parts ∧ first ++ parts.flatten = bytes := by
  constructor
  · intro h
    induction h with
    | last => exact ⟨_, [], _, [], rfl, .nil, by simp⟩
    | more _ ih =>
      obtain ⟨first, parts, d, ws', rfl, row, rfl⟩ := ih
      exact ⟨_, first :: parts, _, _, rfl, .cons ⟨_, rfl, rfl⟩ row, by simp⟩
  · rintro ⟨first, parts, d, ws', rfl, row, rfl⟩
    induction row generalizing first d with
    | nil => simpa using IsLiteral.last
    | @cons _ _ part parts one _ ih =>
      obtain ⟨⟨token, d'⟩, rfl, picked⟩ := one
      unfold partOf? at picked
      split at picked
      next found =>
        cases picked
        cases found
        simpa using IsLiteral.more (ih part d')
      next => cases picked

/-- A literal is taken with all its parts. -/
theorem reads_literal_iff {expected : Expectation} {bytes : List UInt8}
    (proper : ending.IsProper) :
    Reads (literal expected) ending ts bytes rest ↔
      (∃ ws, Takes ts ws rest ∧ IsLiteral ws bytes) ∧ Sees (partOf? · = none) ending rest := by
  simp only [isLiteral_iff, literal]
  rw [reads_bind_iff]
  constructor
  · rintro ⟨t, mid, taken, reads⟩
    split at reads
    next first found =>
      rw [reads_next_cons_iff proper (by simp [found])] at taken
      subst taken
      rw [reads_bind_iff] at reads
      obtain ⟨parts, _, more, last⟩ := reads
      obtain ⟨rfl, rfl⟩ := reads_pure_iff.mp last
      obtain ⟨⟨ws, takes, row⟩, sees⟩ := (reads_manyPicked_iff partOf? proper rfl fun t => by
        obtain ⟨token, _, _⟩ := t
        cases token <;> rfl).mp more
      refine ⟨⟨t.word :: ws, takes_cons_iff.mpr ⟨t, mid, rfl, rfl, takes⟩, first, parts,
        docOf t, ws, ?_, row, rfl⟩, sees⟩
      rw [Located.word, found]
    next => exact absurd reads not_reads_unexpected
  · rintro ⟨⟨_, takes, first, parts, d, ws, rfl, row, rfl⟩, sees⟩
    obtain ⟨t, mid, rfl, word, takes⟩ := takes_cons_iff.mp takes
    have found : t.token = .str first := congrArg Word.token word
    refine ⟨t, mid, by simp, ?_⟩
    simp only [found]
    refine reads_bind_iff.mpr ⟨parts, rest, ?_, reads_pure_iff.mpr ⟨rfl, rfl⟩⟩
    refine (reads_manyPicked_iff partOf? proper rfl fun t => ?_).mpr ⟨⟨ws, takes, row⟩, sees⟩
    obtain ⟨token, _, _⟩ := t
    cases token <;> rfl

/-- A literal that is text is taken with all its parts. -/
theorem reads_textLiteral_iff {role : TextRole} {text : String} (proper : ending.IsProper) :
    Reads (textLiteral role) ending ts text rest ↔
      (∃ ws bytes, Takes ts ws rest ∧ IsLiteral ws bytes ∧ Utf8.decode? bytes = some text) ∧
        Sees (partOf? · = none) ending rest := by
  simp only [textLiteral, reads_bind_iff, reads_peek_iff, reads_literal_iff proper]
  constructor
  · rintro ⟨t, _, ⟨_, rfl⟩, bytes, mid, ⟨⟨ws, takes, phrase⟩, sees⟩, reads⟩
    split at reads
    next decoded =>
      obtain ⟨rfl, rfl⟩ := reads_pure_iff.mp reads
      exact ⟨⟨ws, bytes, takes, phrase, decoded⟩, sees⟩
    next => exact absurd reads not_reads_throw
  · rintro ⟨⟨ws, bytes, takes, phrase, decoded⟩, sees⟩
    obtain ⟨t, seen, _⟩ : Sees (fun _ => True) ending ts := by
      cases phrase <;> exact Takes.sees takes trivial
    refine ⟨t, ts, ⟨seen, rfl⟩, bytes, rest, ⟨⟨ws, takes, phrase⟩, sees⟩, ?_⟩
    simp [decoded]

/-! ### Names of options -/

/-- The name of a token that continues the name of an option. -/
def suffixOf? : Token → Option String
  | .ident name => if isSuffix name then some name else none
  | _ => none

private theorem isPath_iff {ws : List Word} {path : String} :
    IsPath ws path ↔ ∃ names, IsSequence (IsPicked suffixOf?) ws names ∧ String.join names = path := by
  constructor
  · intro h
    induction h with
    | nil => exact ⟨[], .nil, rfl⟩
    | @cons name _ _ _ suffix _ ih =>
      obtain ⟨names, row, rfl⟩ := ih
      exact ⟨name :: names, .cons ⟨_, rfl, by simp [suffixOf?, suffix]⟩ row, by simp⟩
  · rintro ⟨names, row, rfl⟩
    induction row with
    | nil => exact .nil
    | cons one _ ih =>
      obtain ⟨⟨token, d⟩, rfl, picked⟩ := one
      unfold suffixOf? at picked
      split at picked
      next found =>
        split at picked
        next suffix =>
          cases picked
          cases found
          simpa using IsPath.cons suffix ih
        next => cases picked
      next => cases picked

private theorem reads_optionNameSuffixes_iff {names : List String} (proper : ending.IsProper) :
    Reads optionNameSuffixes ending ts names rest ↔
      (∃ ws, Takes ts ws rest ∧ IsSequence (IsPicked suffixOf?) ws names) ∧
        Sees (suffixOf? · = none) ending rest := by
  refine reads_manyPicked_iff suffixOf? proper rfl fun t => ?_
  obtain ⟨token, _, _⟩ := t
  cases token with
  | ident name =>
    simp only [suffixOf?]
    split <;> rfl
  | _ => rfl

/-- The name of an option is taken with all of its path. -/
theorem reads_optionName_iff {name : String} (proper : ending.IsProper) :
    Reads optionName ending ts name rest ↔
      (∃ ws, Takes ts ws rest ∧ IsOptionName ws name) ∧ Sees (suffixOf? · = none) ending rest := by
  simp only [optionName, parenthesizedName]
  rw [reads_bind_iff]
  constructor
  · rintro ⟨t, mid, taken, reads⟩
    split at reads
    next base found =>
      rw [reads_next_cons_iff proper (by simp [found])] at taken
      subst taken
      simp only [reads_bind_iff, reads_pure_iff, reads_optionNameSuffixes_iff proper] at reads
      obtain ⟨_, _, ⟨rfl, rfl⟩, names, _, ⟨⟨ws, takes, row⟩, sees⟩, rfl, rfl⟩ := reads
      refine ⟨⟨t.word :: ws, takes_cons_iff.mpr ⟨t, _, rfl, rfl, takes⟩, ?_⟩, sees⟩
      rw [Located.word, found]
      exact .plain (isPath_iff.mpr ⟨names, row, rfl⟩)
    next found =>
      rw [reads_next_cons_iff proper (by simp [found])] at taken
      subst taken
      simp only [reads_bind_iff, reads_pure_iff, reads_ident_iff proper, reads_expect_iff proper,
        reads_optionNameSuffixes_iff proper] at reads
      obtain ⟨_, _, ⟨inner, _, ⟨d, first⟩, _, _, ⟨d', second⟩, rfl, rfl⟩, names, _,
        ⟨⟨ws, takes, row⟩, sees⟩, rfl, rfl⟩ := reads
      refine ⟨⟨t.word :: _, takes_cons_iff.mpr ⟨t, _, rfl, rfl, first.trans (second.trans takes)⟩,
        ?_⟩, sees⟩
      rw [Located.word, found]
      exact .extension (isPath_iff.mpr ⟨names, row, rfl⟩)
    next => simp at reads
  · rintro ⟨⟨_, takes, phrase⟩, sees⟩
    cases phrase with
    | plain path =>
      obtain ⟨names, row, rfl⟩ := isPath_iff.mp path
      obtain ⟨t, mid, rfl, word, takes⟩ := takes_cons_iff.mp takes
      have found : t.token = _ := congrArg Word.token word
      refine ⟨t, mid, by simp, ?_⟩
      simp only [found, reads_bind_iff, reads_pure_iff, reads_optionNameSuffixes_iff proper]
      exact ⟨_, mid, ⟨rfl, rfl⟩, names, rest, ⟨⟨_, takes, row⟩, sees⟩, rfl, rfl⟩
    | extension path =>
      obtain ⟨names, row, rfl⟩ := isPath_iff.mp path
      obtain ⟨t, mid, rfl, word, takes⟩ := takes_cons_iff.mp takes
      obtain ⟨mid', first, takes⟩ := takes_head_iff.mp takes
      obtain ⟨mid'', second, takes⟩ := takes_head_iff.mp takes
      have found : t.token = _ := congrArg Word.token word
      refine ⟨t, mid, by simp, ?_⟩
      simp only [found, reads_bind_iff, reads_pure_iff, reads_ident_iff proper,
        reads_expect_iff proper, reads_optionNameSuffixes_iff proper]
      exact ⟨_, mid'', ⟨_, mid', ⟨_, first⟩, ⟨⟩, mid'', ⟨_, second⟩, rfl, rfl⟩, names, rest,
        ⟨⟨_, takes, row⟩, sees⟩, rfl, rfl⟩

/-- The key of a map entry is taken with all of its path. -/
theorem accepts_mapKey (proper : ending.IsProper) :
    Accepts mapKey IsKey (suffixOf? · = none) ending where
  sound h := by
    rw [mapKey, reads_ifEat_iff proper] at h
    rcases h with ⟨d, mid, first, reads⟩ | ⟨_, reads⟩
    · simp only [reads_bind_iff, reads_ident_iff proper, reads_expect_iff proper,
        reads_pure_iff] at reads
      obtain ⟨inner, _, ⟨d', second⟩, _, _, ⟨d'', third⟩, rfl, rfl⟩ := reads
      exact ⟨_, first.trans (second.trans third), .extension⟩
    · obtain ⟨⟨ws, takes, phrase⟩, _⟩ := (reads_optionName_iff proper).mp reads
      exact ⟨ws, takes, .option phrase⟩
  complete takes phrase fits := by
    rw [mapKey, reads_ifEat_iff proper]
    cases phrase with
    | option name =>
      refine .inr ⟨?_, (reads_optionName_iff proper).mpr ⟨⟨_, takes, name⟩, fits⟩⟩
      cases name <;> exact takes.sees (by simp)
    | extension =>
      obtain ⟨mid, first, takes⟩ := takes_head_iff.mp takes
      obtain ⟨mid', second, third⟩ := takes_head_iff.mp takes
      refine .inl ⟨_, mid, first, ?_⟩
      simp only [reads_bind_iff, reads_ident_iff proper, reads_expect_iff proper, reads_pure_iff]
      exact ⟨_, mid', ⟨_, second⟩, ⟨⟩, _, ⟨_, third⟩, rfl, rfl⟩

/-! ### Values -/

/-- A value of the grammar with at most so many brackets inside each other. -/
def IsValueWithin (budget : Nat) (ws : List Word) (v : Value) : Prop :=
  IsValue ws v ∧ v.depth ≤ budget

/-- The value that a token is by itself. -/
def scalarOf? : Token → Option Value
  | .int n => some (.int n)
  | .float x => some (.float x)
  | .ident name => some (.ident name)
  | _ => none

/-- The mark that opens a bracketed value. -/
def Bracket.opening : Bracket → Mark
  | .list => .openBracket
  | .braces => .openBrace
  | .angles => .less

theorem Bracket.ofMark?_eq_some_iff {m : Mark} {b : Bracket} :
    Bracket.ofMark? m = some b ↔ m = b.opening := by
  cases m <;> cases b <;> simp [Bracket.ofMark?, Bracket.opening]

/-- A value is a literal, a single token, or what begins with an opening bracket. -/
theorem reads_valueWith_iff {composite : Located → Bracket → Reader Value} {v : Value}
    (proper : ending.IsProper) :
    Reads (valueWith composite) ending ts v rest ↔
      ((∃ ws bytes, Takes ts ws rest ∧ IsLiteral ws bytes ∧ valueOfBytes bytes = v) ∧
          Sees (partOf? · = none) ending rest) ∨
        (∃ t, ts = t :: rest ∧ scalarOf? t.token = some v) ∨
        ∃ t mid b, ts = t :: mid ∧ t.token = .mark b.opening ∧
          Reads (composite t b) ending mid v rest := by
  simp only [valueWith, reads_bind_iff, reads_peek_iff]
  constructor
  · rintro ⟨t, _, ⟨seen, rfl⟩, reads⟩
    split at reads
    next =>
      simp only [reads_bind_iff, reads_literal_iff proper, reads_pure_iff] at reads
      obtain ⟨bytes, _, ⟨⟨ws, takes, phrase⟩, sees⟩, rfl, rfl⟩ := reads
      exact .inl ⟨⟨ws, bytes, takes, phrase, rfl⟩, sees⟩
    next =>
      simp only [reads_bind_iff, reads_next_iff, seen, Option.some.injEq] at reads
      obtain ⟨_, _, ⟨rfl, rfl⟩, reads⟩ := reads
      have whole (more : t.token ≠ .eof) := eq_cons_of_front? proper seen more
      split at reads
      next found =>
        obtain ⟨rfl, rfl⟩ := reads_pure_iff.mp reads
        exact .inr (.inl ⟨t, whole (by simp [found]), by simp [scalarOf?, found]⟩)
      next found =>
        obtain ⟨rfl, rfl⟩ := reads_pure_iff.mp reads
        exact .inr (.inl ⟨t, whole (by simp [found]), by simp [scalarOf?, found]⟩)
      next found =>
        obtain ⟨rfl, rfl⟩ := reads_pure_iff.mp reads
        exact .inr (.inl ⟨t, whole (by simp [found]), by simp [scalarOf?, found]⟩)
      next m found =>
        split at reads
        next b opens =>
          obtain rfl := Bracket.ofMark?_eq_some_iff.mp opens
          exact .inr (.inr ⟨t, _, b, whole (by simp [found]), found, reads⟩)
        next => exact absurd reads not_reads_unexpected
      next => exact absurd reads not_reads_unexpected
  · rintro (⟨⟨ws, bytes, takes, phrase, rfl⟩, sees⟩ | ⟨t, rfl, found⟩ | ⟨t, mid, b, rfl, found, reads⟩)
    · obtain ⟨t, seen, first, found⟩ : Sees (∃ first, · = .str first) ending ts := by
        cases phrase <;> exact takes.sees ⟨_, rfl⟩
      refine ⟨t, ts, ⟨seen, rfl⟩, ?_⟩
      simp only [found, reads_bind_iff, reads_literal_iff proper, reads_pure_iff]
      exact ⟨bytes, rest, ⟨⟨ws, takes, phrase⟩, sees⟩, rfl, rfl⟩
    · refine ⟨t, _, ⟨rfl, rfl⟩, ?_⟩
      have taken : Reads next ending (t :: rest) t rest := by simp
      obtain ⟨token, p, d⟩ := t
      cases token <;> cases found <;>
        exact reads_bind_iff.mpr ⟨_, rest, taken, reads_pure_iff.mpr ⟨rfl, rfl⟩⟩
    · refine ⟨t, _, ⟨rfl, rfl⟩, ?_⟩
      simp only [found, reads_bind_iff, reads_next_iff, front?_cons]
      refine ⟨t, mid, ⟨rfl, rfl⟩, ?_⟩
      simpa only [found, Bracket.ofMark?_eq_some_iff.mpr rfl] using reads

/-- A value begins with a word; if that is a mark, it opens a bracket. -/
theorem exists_cons_of_isValue {ws : List Word} {v : Value} (h : IsValue ws v) :
    ∃ w ws', ws = w :: ws' ∧ ∀ m, w.token = .mark m → ∃ b : Bracket, m = b.opening := by
  cases h with
  | literal phrase => cases phrase <;> exact ⟨_, _, rfl, by simp⟩
  | emptyList => exact ⟨_, _, rfl, by simpa using ⟨.list, rfl⟩⟩
  | list => exact ⟨_, _, rfl, by simpa using ⟨.list, rfl⟩⟩
  | braces => exact ⟨_, _, rfl, by simpa using ⟨.braces, rfl⟩⟩
  | angles => exact ⟨_, _, rfl, by simpa using ⟨.angles, rfl⟩⟩
  | _ => exact ⟨_, _, rfl, by simp⟩

/-- A value that begins with one of these marks is a map. -/
private theorem exists_map_of_isValue {w : Word} {ws : List Word} {v : Value}
    (h : IsValue (w :: ws) v) (opens : w.token = .mark .openBrace ∨ w.token = .mark .less) :
    ∃ entries, v = .map entries := by
  generalize whole : w :: ws = ws' at h
  cases h with
  | literal phrase => cases phrase <;> (cases whole; simp at opens)
  | braces => exact ⟨_, rfl⟩
  | angles => exact ⟨_, rfl⟩
  | _ => cases whole; simp at opens

/-- A map begins with one of these marks. -/
private theorem exists_cons_of_isValue_map {ws : List Word} {entries : List Setting}
    (h : IsValue ws (.map entries)) :
    ∃ w ws', ws = w :: ws' ∧ (w.token = .mark .openBrace ∨ w.token = .mark .less) := by
  generalize same : Value.map entries = v at h
  cases h with
  | literal phrase =>
    unfold valueOfBytes at same
    split at same <;> cases same
  | braces => exact ⟨_, _, rfl, .inl rfl⟩
  | angles => exact ⟨_, _, rfl, .inr rfl⟩
  | _ => cases same

/-! ### Lists -/

section Composite

variable {item : Reader Value} {budget : Nat}

/-- The items of a list and the bracket that closes it. -/
theorem reads_listItems_iff {vs : List Value} (proper : ending.IsProper)
    (accepts : Accepts item (IsValueWithin budget) (partOf? · = none) ending) :
    Reads (listItems item) ending ts vs rest ↔
      (vs = [] ∧ ∃ d, Takes ts [⟨.mark .closeBracket, d⟩] rest) ∨
        ∃ ws d, IsCommaList (IsValueWithin budget) ws vs ∧
          Takes ts (ws ++ [⟨.mark .closeBracket, d⟩]) rest := by
  have items := accepts_commaSeparated proper accepts rfl
  rw [listItems, reads_ifEat_iff proper]
  simp only [reads_bind_iff, reads_expect_iff proper, reads_pure_iff]
  constructor
  · rintro (⟨d, _, takes, rfl, rfl⟩ | ⟨_, vs, mid, reads, _, _, ⟨d, takes'⟩, rfl, rfl⟩)
    · exact .inl ⟨rfl, d, takes⟩
    · obtain ⟨ws, takes, list⟩ := items.sound reads
      exact .inr ⟨ws, d, list, takes.trans takes'⟩
  · rintro (⟨rfl, d, takes⟩ | ⟨ws, d, list, takes⟩)
    · exact .inl ⟨d, rest, takes, rfl, rfl⟩
    · obtain ⟨mid, takes, takes'⟩ := takes_append_iff.mp takes
      have reads := items.complete takes list (takes'.sees (by simp [partOf?]))
      refine .inr ⟨?_, vs, mid, reads, ⟨⟩, rest, ⟨d, takes'⟩, rfl, rfl⟩
      cases vs with
      | nil => exact absurd rfl list.ne_nil
      | cons v vs =>
        obtain ⟨_, _, rfl, ⟨phrase, _⟩, _⟩ := IsCommaList.cons_iff.mp list
        obtain ⟨w, ws, rfl, opens⟩ := exists_cons_of_isValue phrase
        refine takes.sees fun closes => ?_
        obtain ⟨b, opening⟩ := opens _ closes
        cases b <;> cases opening

/-! ### Maps -/

/-- What a map entry has behind its key. -/
private def IsEntryRest (budget : Nat) (ws : List Word) (v : Value) : Prop :=
  (∃ d vs, ws = ⟨.mark .colon, d⟩ :: vs ∧ IsValueWithin budget vs v) ∨
    IsValueWithin budget ws v ∧ ∃ entries, v = .map entries

private theorem accepts_mapValue (proper : ending.IsProper)
    (accepts : Accepts item (IsValueWithin budget) (partOf? · = none) ending) :
    Accepts (mapValue item) (IsEntryRest budget) (partOf? · = none) ending where
  sound h := by
    rw [mapValue, reads_ifEat_iff proper] at h
    rcases h with ⟨d, mid, first, reads⟩ | ⟨_, reads⟩
    · obtain ⟨ws, takes, phrase⟩ := accepts.sound reads
      exact ⟨_, first.trans takes, .inl ⟨d, ws, rfl, phrase⟩⟩
    · simp only [reads_bind_iff, reads_peek_iff] at reads
      obtain ⟨t, _, ⟨seen, rfl⟩, reads⟩ := reads
      split at reads
      next opens =>
        obtain ⟨ws, takes, phrase⟩ := accepts.sound reads
        obtain ⟨w, ws, rfl, _⟩ := exists_cons_of_isValue phrase.1
        obtain ⟨_, _, rfl, rfl, _⟩ := takes_cons_iff.mp takes
        cases seen
        exact ⟨_, takes, .inr ⟨phrase, exists_map_of_isValue phrase.1 opens⟩⟩
      next => exact absurd reads not_reads_unexpected
  complete takes phrase fits := by
    rw [mapValue, reads_ifEat_iff proper]
    rcases phrase with ⟨d, vs, rfl, phrase⟩ | ⟨phrase, entries, rfl⟩
    · obtain ⟨mid, first, takes⟩ := takes_head_iff.mp takes
      exact .inl ⟨d, mid, first, accepts.complete takes phrase fits⟩
    · obtain ⟨w, ws, rfl, opens⟩ := exists_cons_of_isValue_map phrase.1
      refine .inr ⟨takes.sees (by rcases opens with h | h <;> simp [h]), ?_⟩
      have reads := accepts.complete takes phrase fits
      obtain ⟨t, mid, rfl, rfl, _⟩ := takes_cons_iff.mp takes
      simp only [reads_bind_iff, reads_peek_iff]
      have opens : t.token = .mark .openBrace ∨ t.token = .mark .less := opens
      refine ⟨t, _, ⟨rfl, rfl⟩, ?_⟩
      rwa [if_pos opens]

/-- Behind a map entry a separator is taken if there is one. -/
private theorem reads_separator_iff {s : Setting} {o : Option Setting} (proper : ending.IsProper) :
    Reads (do
        unless ← eat .comma do
          discard (eat .semicolon)
        return some s) ending ts o rest ↔
      o = some s ∧ ((∃ w, IsSeparator [w] ∧ Takes ts [w] rest) ∨
        ts = rest ∧ Sees (fun t => t ≠ .mark .comma ∧ t ≠ .mark .semicolon) ending ts) := by
  simp only [reads_ifEat_iff proper, reads_bind_iff, reads_discard_iff, reads_eat_iff proper,
    reads_pure_iff]
  constructor
  · rintro (⟨d, _, takes, rfl, rfl⟩ | ⟨other, _, _, ⟨b, h⟩, rfl, rfl⟩)
    · exact ⟨rfl, .inl ⟨_, .comma, takes⟩⟩
    · rcases h with ⟨_, d, takes⟩ | ⟨_, rfl, other'⟩
      · exact ⟨rfl, .inl ⟨_, .semicolon, takes⟩⟩
      · -- Both marks were looked for at the same token.
        obtain ⟨t, seen, differs⟩ := other
        obtain ⟨_, seen', differs'⟩ := other'
        cases seen.symm.trans seen'
        exact ⟨rfl, .inr ⟨rfl, t, seen, differs, differs'⟩⟩
  · rintro ⟨rfl, ⟨w, sep, takes⟩ | ⟨rfl, other⟩⟩
    · cases sep with
      | comma => exact .inl ⟨_, rest, takes, rfl, rfl⟩
      | semicolon =>
        exact .inr ⟨takes.sees (by simp), ⟨⟩, rest, ⟨true, .inl ⟨rfl, _, takes⟩⟩, rfl, rfl⟩
    · exact .inr ⟨other.mono fun _ h => h.1, ⟨⟩, ts,
        ⟨false, .inr ⟨rfl, rfl, other.mono fun _ h => h.2⟩⟩, rfl, rfl⟩

/-- A map entry of the grammar with at most so many brackets inside each other. -/
private def IsEntryWithin (budget : Nat) (ws : List Word) (s : Setting) : Prop :=
  IsEntry ws s ∧ s.depth ≤ budget

private theorem isEntryWithin_iff {ws : List Word} {name : String} {v : Value} :
    IsEntryWithin budget ws ⟨name, v⟩ ↔ ∃ ks vs sep, ws = ks ++ (vs ++ sep) ∧ IsKey ks name ∧
      IsEntryRest budget vs v ∧ IsSeparator sep := by
  constructor
  · rintro ⟨h, fits⟩
    rw [Setting.depth] at fits
    cases h with
    | colon key value sep => exact ⟨_, _, _, rfl, key, .inl ⟨_, _, rfl, value, fits⟩, sep⟩
    | map key value sep => exact ⟨_, _, _, rfl, key, .inr ⟨⟨value, fits⟩, _, rfl⟩, sep⟩
  · rintro ⟨ks, vs, sep, rfl, key, ⟨d, vs, rfl, value, fits⟩ | ⟨⟨value, fits⟩, entries, rfl⟩, behind⟩
    · exact ⟨.colon key value behind, by rwa [Setting.depth]⟩
    · exact ⟨.map key value behind, by rwa [Setting.depth]⟩

/-- A token that may stand behind a map entry without a separator. -/
private def FollowsEntry (t : Token) : Prop :=
  partOf? t = none ∧ t ≠ .mark .comma ∧ t ≠ .mark .semicolon

/-- A map entry begins with a token that follows an entry and closes no map. -/
private theorem exists_cons_of_isKey {ws : List Word} {name : String} (h : IsKey ws name) :
    ∃ w ws', ws = w :: ws' ∧ FollowsEntry w.token ∧ w.token ≠ .mark .closeBrace ∧
      w.token ≠ .mark .greater := by
  cases h with
  | option name => cases name <;> exact ⟨_, _, rfl, by simp [FollowsEntry, partOf?]⟩
  | extension => exact ⟨_, _, rfl, by simp [FollowsEntry, partOf?]⟩

private theorem exists_cons_of_isEntryRest {ws : List Word} {v : Value}
    (h : IsEntryRest budget ws v) : ∃ w ws', ws = w :: ws' ∧ suffixOf? w.token = none := by
  rcases h with ⟨d, vs, rfl, _⟩ | ⟨⟨phrase, _⟩, entries, rfl⟩
  · exact ⟨_, _, rfl, rfl⟩
  · obtain ⟨w, ws', rfl, opens⟩ := exists_cons_of_isValue_map phrase
    exact ⟨w, ws', rfl, by rcases opens with h | h <;> simp [h, suffixOf?]⟩

private theorem exists_cons_of_isEntryWithin {ws : List Word} {s : Setting}
    (h : IsEntryWithin budget ws s) : ∃ w ws', ws = w :: ws' ∧ FollowsEntry w.token ∧
      w.token ≠ .mark .closeBrace ∧ w.token ≠ .mark .greater := by
  obtain ⟨name, v⟩ := s
  obtain ⟨ks, _, _, rfl, key, _⟩ := isEntryWithin_iff.mp h
  obtain ⟨w, ws, rfl, begins⟩ := exists_cons_of_isKey key
  exact ⟨w, _, rfl, begins⟩

/-- What is read again and again between the marks of a map: an entry, or the mark that closes it. -/
private def mapEntry (item : Reader Value) (close : Mark) : Reader (Option Setting) := do
  if ← eat close then return none
  let name ← mapKey
  let value ← mapValue item
  unless ← eat .comma do
    discard (eat .semicolon)
  return some ⟨name, value⟩

section Entry

variable {close : Mark} {s : Setting} (proper : ending.IsProper)

include proper

private theorem exists_close_of_reads (h : Reads (mapEntry item close) ending ts none rest) :
    ∃ d, Takes ts [⟨.mark close, d⟩] rest := by
  rcases (reads_ifEat_iff proper).mp h with ⟨d, _, takes, same⟩ | ⟨_, reads⟩
  · obtain ⟨_, rfl⟩ := reads_pure_iff.mp same
    exact ⟨d, takes⟩
  · obtain ⟨name, mid, _, reads⟩ := reads_bind_iff.mp reads
    obtain ⟨v, mid', _, reads⟩ := reads_bind_iff.mp reads
    cases ((reads_separator_iff proper).mp reads).1

variable (accepts : Accepts item (IsValueWithin budget) (partOf? · = none) ending)

include accepts

private theorem exists_isEntryWithin_of_reads
    (h : Reads (mapEntry item close) ending ts (some s) rest) :
    ∃ ws, Takes ts ws rest ∧ IsEntryWithin budget ws s := by
  rcases (reads_ifEat_iff proper).mp h with ⟨_, _, _, same⟩ | ⟨_, reads⟩
  · cases (reads_pure_iff.mp same).1
  obtain ⟨name, mid, readsKey, reads⟩ := reads_bind_iff.mp reads
  obtain ⟨v, mid', readsValue, reads⟩ := reads_bind_iff.mp reads
  obtain ⟨same, behind⟩ := (reads_separator_iff proper).mp reads
  cases same
  obtain ⟨ks, takesKey, key⟩ := (accepts_mapKey proper).sound readsKey
  obtain ⟨vs, takesValue, value⟩ := (accepts_mapValue proper accepts).sound readsValue
  obtain ⟨sep, takesSep, separates⟩ : ∃ sep, Takes mid' sep rest ∧ IsSeparator sep := by
    rcases behind with ⟨w, separates, takes⟩ | ⟨rfl, _⟩
    · exact ⟨[w], takes, separates⟩
    · exact ⟨[], takes_nil_iff.mpr rfl, .none⟩
  exact ⟨_, takesKey.trans (takesValue.trans takesSep),
    isEntryWithin_iff.mpr ⟨ks, vs, sep, rfl, key, value, separates⟩⟩

private theorem reads_mapEntry_of {ws : List Word} (closes : close = .closeBrace ∨ close = .greater)
    (takes : Takes ts ws rest) (entry : IsEntryWithin budget ws s)
    (fits : Sees FollowsEntry ending rest) :
    Reads (mapEntry item close) ending ts (some s) rest := by
  -- The mark that closes the map would be taken first, but no key begins with one.
  have more : Sees (· ≠ .mark close) ending ts := by
    obtain ⟨w, _, rfl, _, others⟩ := exists_cons_of_isEntryWithin entry
    rcases closes with rfl | rfl
    · exact takes.sees others.1
    · exact takes.sees others.2
  obtain ⟨name, v⟩ := s
  obtain ⟨ks, vs, sep, rfl, key, value, separates⟩ := isEntryWithin_iff.mp entry
  obtain ⟨mid, takesKey, takes⟩ := takes_append_iff.mp takes
  obtain ⟨mid', takesValue, takesSep⟩ := takes_append_iff.mp takes
  -- A name goes on as long as it can, so what follows it must not begin with a point.
  have behindKey : Sees (suffixOf? · = none) ending mid := by
    obtain ⟨w, _, rfl, other⟩ := exists_cons_of_isEntryRest value
    exact takesValue.sees other
  have behindValue : Sees (partOf? · = none) ending mid' := by
    cases separates with
    | none => exact takes_nil_iff.mp takesSep ▸ fits.mono fun _ h => h.1
    | _ => exact takesSep.sees rfl
  have readsKey := (accepts_mapKey proper).complete takesKey key behindKey
  have readsValue := (accepts_mapValue proper accepts).complete takesValue value behindValue
  refine (reads_ifEat_iff proper).mpr (.inr ⟨more, reads_bind_iff.mpr ⟨name, mid, readsKey,
    reads_bind_iff.mpr ⟨v, mid', readsValue, (reads_separator_iff proper).mpr ⟨rfl, ?_⟩⟩⟩⟩)
  cases separates with
  | none =>
    obtain rfl := takes_nil_iff.mp takesSep
    exact .inr ⟨rfl, fits.mono fun _ h => h.2⟩
  | comma => exact .inl ⟨_, .comma, takesSep⟩
  | semicolon => exact .inl ⟨_, .semicolon, takesSep⟩

/-- The entries of a map and the mark that closes it. -/
theorem reads_mapEntries_iff {entries : List Setting}
    (closes : close = .closeBrace ∨ close = .greater) :
    Reads (mapEntries item close) ending ts entries rest ↔
      ∃ ws d, (IsSequence IsEntry ws entries ∧ ∀ s ∈ entries, s.depth ≤ budget) ∧
        Takes ts (ws ++ [⟨.mark close, d⟩]) rest := by
  change Reads (many (mapEntry item close)) ending ts entries rest ↔ _
  simp only [← IsSequence.and_iff]
  constructor
  · intro h
    obtain ⟨ws, mid, takes, row, d, closed⟩ := exists_of_reads_many (IsEntryWithin budget)
      (fun ts rest => ∃ d, Takes ts [⟨.mark close, d⟩] rest)
      (exists_isEntryWithin_of_reads proper accepts) (fun entry => by
        obtain ⟨w, ws, rfl, _⟩ := exists_cons_of_isEntryWithin entry
        simp) (exists_close_of_reads proper) h
    exact ⟨ws, d, row, takes.trans closed⟩
  · rintro ⟨ws, d, row, takes⟩
    obtain ⟨mid, takes, closed⟩ := takes_append_iff.mp takes
    have fits : Sees FollowsEntry ending mid := by
      rcases closes with rfl | rfl <;> exact closed.sees (by simp [FollowsEntry, partOf?])
    refine reads_many_of (IsEntryWithin budget) FollowsEntry
      (reads_mapEntry_of proper accepts closes) (fun entry => ?_) takes row fits ?_
    · obtain ⟨w, ws, rfl, begins, _⟩ := exists_cons_of_isEntryWithin entry
      exact ⟨w, ws, rfl, begins⟩
    · exact (reads_ifEat_iff proper).mpr (.inl ⟨d, rest, closed, reads_pure_iff.mpr ⟨rfl, rfl⟩⟩)

end Entry

/-- What stands behind an opening bracket makes a value together with it. -/
private theorem reads_bracketed_iff {b : Bracket} {d : String} {v : Value}
    (proper : ending.IsProper)
    (accepts : Accepts item (IsValueWithin budget) (partOf? · = none) ending) :
    Reads (bracketed item b) ending ts v rest ↔
      ∃ ws, Takes ts ws rest ∧ IsValueWithin (budget + 1) (⟨.mark b.opening, d⟩ :: ws) v := by
  cases b with
  | list =>
    simp only [bracketed, reads_map_iff, reads_listItems_iff proper accepts]
    constructor
    · rintro ⟨vs, ⟨rfl, d', takes⟩ | ⟨ws, d', list, takes⟩, rfl⟩
      · exact ⟨_, takes, .emptyList, Value.depth_list_le_iff.mpr (by simp)⟩
      · obtain ⟨list, fits⟩ := IsCommaList.and_iff.mp list
        exact ⟨_, takes, .list list, Value.depth_list_le_iff.mpr fits⟩
    · rintro ⟨ws, takes, phrase, fits⟩
      -- With its first word as a variable the phrase can be taken apart; that word then leaves the
      -- lists.
      generalize whole : (⟨.mark Bracket.list.opening, d⟩ : Word) :: ws = ws' at phrase
      cases phrase with
      | emptyList =>
        cases whole
        exact ⟨[], .inl ⟨rfl, _, takes⟩, rfl⟩
      | list list =>
        cases whole
        have list := IsCommaList.and_iff.mpr ⟨list, Value.depth_list_le_iff.mp fits⟩
        exact ⟨_, .inr ⟨_, _, list, takes⟩, rfl⟩
      | literal phrase => cases phrase <;> cases whole
      | _ => cases whole
  | braces =>
    simp only [bracketed, reads_map_iff, reads_mapEntries_iff proper accepts (.inl rfl)]
    constructor
    · rintro ⟨entries, ⟨ws, d', ⟨row, fits⟩, takes⟩, rfl⟩
      exact ⟨_, takes, .braces row, Value.depth_map_le_iff.mpr fits⟩
    · rintro ⟨ws, takes, phrase, fits⟩
      generalize whole : (⟨.mark Bracket.braces.opening, d⟩ : Word) :: ws = ws' at phrase
      cases phrase with
      | braces row =>
        cases whole
        exact ⟨_, ⟨_, _, ⟨row, Value.depth_map_le_iff.mp fits⟩, takes⟩, rfl⟩
      | literal phrase => cases phrase <;> cases whole
      | _ => cases whole
  | angles =>
    simp only [bracketed, reads_map_iff, reads_mapEntries_iff proper accepts (.inr rfl)]
    constructor
    · rintro ⟨entries, ⟨ws, d', ⟨row, fits⟩, takes⟩, rfl⟩
      exact ⟨_, takes, .angles row, Value.depth_map_le_iff.mpr fits⟩
    · rintro ⟨ws, takes, phrase, fits⟩
      generalize whole : (⟨.mark Bracket.angles.opening, d⟩ : Word) :: ws = ws' at phrase
      cases phrase with
      | angles row =>
        cases whole
        exact ⟨_, ⟨_, _, ⟨row, Value.depth_map_le_iff.mp fits⟩, takes⟩, rfl⟩
      | literal phrase => cases phrase <;> cases whole
      | _ => cases whole

end Composite

private theorem depth_valueOfBytes (bytes : List UInt8) : (valueOfBytes bytes).depth = 0 := by
  unfold valueOfBytes
  split <;> rw [Value.depth] <;> simp

private theorem isValueWithin_of_scalarOf? {w : Word} {v : Value} {budget : Nat}
    (scalar : scalarOf? w.token = some v) : IsValueWithin budget [w] v := by
  obtain ⟨token, d⟩ := w
  cases token <;> cases scalar
  · exact ⟨.ident, by simp [Value.depth]⟩
  · exact ⟨.int, by simp [Value.depth]⟩
  · exact ⟨.float, by simp [Value.depth]⟩

/-- A value is a literal, a single word, or begins with an opening bracket. -/
private theorem isValue_cases {ws : List Word} {v : Value} (h : IsValue ws v) :
    (∃ bytes, IsLiteral ws bytes ∧ valueOfBytes bytes = v) ∨
      (∃ w, ws = [w] ∧ scalarOf? w.token = some v) ∨
      ∃ w ws' b, ws = w :: ws' ∧ w.token = .mark (Bracket.opening b) := by
  cases h with
  | literal phrase => exact .inl ⟨_, phrase, rfl⟩
  | emptyList => exact .inr (.inr ⟨_, _, .list, rfl, rfl⟩)
  | list => exact .inr (.inr ⟨_, _, .list, rfl, rfl⟩)
  | braces => exact .inr (.inr ⟨_, _, .braces, rfl, rfl⟩)
  | angles => exact .inr (.inr ⟨_, _, .angles, rfl, rfl⟩)
  | _ => exact .inr (.inl ⟨_, rfl, rfl⟩)

/-- Values are accepted if those that begin with a bracket are. -/
private theorem accepts_valueWith {composite : Located → Bracket → Reader Value} {budget : Nat}
    (proper : ending.IsProper)
    (brackets : ∀ {t : Located} {b : Bracket} {ts rest : List Located} {v : Value},
      t.token = .mark b.opening → (Reads (composite t b) ending ts v rest ↔
        ∃ ws, Takes ts ws rest ∧ IsValueWithin budget (t.word :: ws) v)) :
    Accepts (valueWith composite) (IsValueWithin budget) (partOf? · = none) ending where
  sound h := by
    rcases (reads_valueWith_iff proper).mp h with
      ⟨⟨ws, bytes, takes, phrase, rfl⟩, _⟩ | ⟨t, rfl, scalar⟩ | ⟨t, mid, b, rfl, opens, reads⟩
    · exact ⟨ws, takes, .literal phrase, by simp [depth_valueOfBytes]⟩
    · exact ⟨_, takes_single_iff.mpr ⟨t, rfl, rfl⟩, isValueWithin_of_scalarOf? scalar⟩
    · obtain ⟨ws, takes, phrase⟩ := (brackets opens).mp reads
      exact ⟨_, takes_cons_iff.mpr ⟨t, mid, rfl, rfl, takes⟩, phrase⟩
  complete takes phrase fits := by
    refine (reads_valueWith_iff proper).mpr ?_
    rcases isValue_cases phrase.1 with
      ⟨bytes, literal, same⟩ | ⟨w, rfl, scalar⟩ | ⟨w, ws, b, rfl, opens⟩
    · exact .inl ⟨⟨_, bytes, takes, literal, same⟩, fits⟩
    · obtain ⟨t, rfl, rfl⟩ := takes_single_iff.mp takes
      exact .inr (.inl ⟨t, rfl, scalar⟩)
    · obtain ⟨t, mid, rfl, rfl, behind⟩ := takes_cons_iff.mp takes
      exact .inr (.inr ⟨t, mid, b, rfl, opens, (brackets opens).mpr ⟨ws, behind, phrase⟩⟩)

/-- A value that begins with a bracket has a depth. -/
private theorem not_isValueWithin_zero {w : Word} {ws : List Word} {b : Bracket} {v : Value}
    (opens : w.token = .mark b.opening) : ¬ IsValueWithin 0 (w :: ws) v := by
  rintro ⟨phrase, depth⟩
  generalize whole : w :: ws = ws' at phrase
  cases phrase with
  | literal phrase => cases phrase <;> (cases whole; cases opens)
  | emptyList => simp [Value.depth] at depth
  | list => simp [Value.depth] at depth
  | braces => simp [Value.depth] at depth
  | angles => simp [Value.depth] at depth
  | _ => cases whole; cases opens

/-- The reader of values accepts the values whose depth is within its budget. -/
theorem accepts_value (budget : Nat) (proper : ending.IsProper) :
    Accepts (value budget) (IsValueWithin budget) (partOf? · = none) ending := by
  induction budget with
  | zero =>
    refine accepts_valueWith proper fun {t _ _ _ _} opens => ?_
    have deeper {ws : List Word} {v : Value} : ¬ IsValueWithin 0 (t.word :: ws) v :=
      not_isValueWithin_zero opens
    simp [tooDeep, deeper]
  | succ budget ih =>
    -- A bracket uses up one of the budget, and what it holds is read with the rest.
    refine accepts_valueWith proper fun {t _ _ _ _} opens => ?_
    have word : t.word = ⟨.mark _, docOf t⟩ := congrArg (Word.mk · (docOf t)) opens
    rw [word]
    exact reads_bracketed_iff proper ih

/-! ### Settings -/

/-- A setting of the grammar with at most so many brackets inside each other. -/
def IsSettingWithin (budget : Nat) (ws : List Word) (s : Setting) : Prop :=
  IsSetting ws s ∧ s.depth ≤ budget

theorem accepts_setting (budget : Nat) (proper : ending.IsProper) :
    Accepts (setting budget) (IsSettingWithin budget) (partOf? · = none) ending where
  sound h := by
    simp only [setting, reads_bind_iff, reads_optionName_iff proper, reads_expect_iff proper,
      reads_pure_iff] at h
    obtain ⟨name, _, ⟨⟨ns, takesName, isName⟩, _⟩, _, _, ⟨d, equals⟩, v, _, reads, rfl, rfl⟩ := h
    obtain ⟨vs, takesValue, phrase, fits⟩ := (accepts_value budget proper).sound reads
    exact ⟨_, takesName.trans (equals.trans takesValue), .intro isName phrase, by rwa [Setting.depth]⟩
  complete takes phrase fits := by
    obtain ⟨phrase, depth⟩ := phrase
    cases phrase with
    | intro isName isValue =>
      rw [Setting.depth] at depth
      obtain ⟨mid, takesName, takes⟩ := takes_append_iff.mp takes
      obtain ⟨mid', equals, takesValue⟩ := takes_head_iff.mp takes
      simp only [setting, reads_bind_iff, reads_optionName_iff proper, reads_expect_iff proper,
        reads_pure_iff]
      exact ⟨_, mid, ⟨⟨_, takesName, isName⟩, equals.sees rfl⟩, ⟨⟩, mid', ⟨_, equals⟩, _, _,
        (accepts_value budget proper).complete takesValue ⟨isValue, depth⟩ fits, rfl, rfl⟩

/-- An option statement behind its keyword. -/
theorem reads_optionStatement_iff {budget : Nat} {s : Setting} (proper : ending.IsProper) :
    Reads (optionStatement budget) ending ts s rest ↔
      ∃ ws d, IsSettingWithin budget ws s ∧ Takes ts (ws ++ [⟨.mark .semicolon, d⟩]) rest := by
  have accepts := accepts_setting budget proper
  simp only [optionStatement, reads_bind_iff, reads_expect_iff proper, reads_pure_iff]
  constructor
  · rintro ⟨_, _, reads, _, _, ⟨d, closed⟩, rfl, rfl⟩
    obtain ⟨ws, takes, phrase⟩ := accepts.sound reads
    exact ⟨ws, d, phrase, takes.trans closed⟩
  · rintro ⟨ws, d, phrase, takes⟩
    obtain ⟨mid, takes, closed⟩ := takes_append_iff.mp takes
    exact ⟨s, mid, accepts.complete takes phrase (closed.sees rfl), ⟨⟩, rest, ⟨d, closed⟩, rfl, rfl⟩

/-- The options in brackets behind a declaration, if what follows is no bracket. -/
theorem accepts_bracketOptions (budget : Nat) (proper : ending.IsProper) :
    Accepts (bracketOptions budget)
      (fun ws options => IsBrackets ws options ∧ ∀ s ∈ options, s.depth ≤ budget)
      (· ≠ .mark .openBracket) ending := by
  have accepts := accepts_commaSeparated proper (accepts_setting budget proper) rfl
  constructor
  · intro ts rest options h
    rw [bracketOptions, reads_ifEat_iff proper] at h
    rcases h with ⟨d, mid, opened, reads⟩ | ⟨_, reads⟩
    · simp only [reads_bind_iff, reads_expect_iff proper, reads_pure_iff] at reads
      obtain ⟨_, _, reads, _, _, ⟨d', closed⟩, rfl, rfl⟩ := reads
      obtain ⟨ws, takes, list⟩ := accepts.sound reads
      obtain ⟨list, depth⟩ := IsCommaList.and_iff.mp list
      exact ⟨_, opened.trans (takes.trans closed), .present list, depth⟩
    · obtain ⟨rfl, rfl⟩ := reads_pure_iff.mp reads
      exact ⟨[], takes_nil_iff.mpr rfl, .absent, by simp⟩
  · rintro ts rest ws options takes ⟨phrase, depth⟩ fits
    rw [bracketOptions, reads_ifEat_iff proper]
    cases phrase with
    | absent =>
      obtain rfl := takes_nil_iff.mp takes
      exact .inr ⟨fits, reads_pure_iff.mpr ⟨rfl, rfl⟩⟩
    | present list =>
      obtain ⟨mid, opened, takes⟩ := takes_head_iff.mp takes
      obtain ⟨mid', takes, closed⟩ := takes_append_iff.mp takes
      refine .inl ⟨_, mid, opened, ?_⟩
      simp only [reads_bind_iff, reads_expect_iff proper, reads_pure_iff]
      have list := IsCommaList.and_iff.mpr ⟨list, depth⟩
      exact ⟨options, mid', accepts.complete takes list (closed.sees (by simp [partOf?])), ⟨⟩, rest,
        ⟨_, closed⟩, rfl, rfl⟩

end ProtoSchema.Reading
