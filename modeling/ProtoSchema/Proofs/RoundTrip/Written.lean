import ProtoSchema.Proofs.Lexing.Literal
import ProtoSchema.Proofs.Lexing.Numeral
import ProtoSchema.Proofs.RoundTrip.Writable

/-!
# Written phrases

A text is written for a phrase if the tokens that it spells are those of the phrase. The one fault
there may be among them is that of a path behind a name with a sign.
-/

namespace ProtoSchema

open Grammar

/-! ### Words of given tokens -/

/-- Whether some words are these tokens, without a fault, whatever documentation they have. -/
def Fits (ws : List Word) (pieces : List Piece) : Prop :=
  ws.map (fun w => some w.token) = pieces

@[simp] theorem fits_nil {ws : List Word} : Fits ws [] ↔ ws = [] :=
  List.map_eq_nil_iff

@[simp] theorem fits_cons {ws : List Word} {t : Token} {pieces : List Piece} :
    Fits ws (some t :: pieces) ↔ ∃ doc rest, ws = ⟨t, doc⟩ :: rest ∧ Fits rest pieces := by
  cases ws with
  | nil => simp [Fits]
  | cons w ws =>
    obtain ⟨token, doc⟩ := w
    constructor
    · intro h
      obtain ⟨same, fits⟩ := List.cons.inj h
      cases same
      exact ⟨doc, ws, rfl, fits⟩
    · rintro ⟨_, _, ⟨⟩, fits⟩
      exact congrArg (some t :: ·) fits

@[simp] theorem fits_append {ws : List Word} {pieces pieces' : List Piece} :
    Fits ws (pieces ++ pieces') ↔
      ∃ first rest, ws = first ++ rest ∧ Fits first pieces ∧ Fits rest pieces' :=
  List.map_eq_append_iff

theorem exists_map_some {α : Type} {xs : List (Option α)} (noNone : none ∉ xs) :
    ∃ ys : List α, ys.map some = xs := by
  induction xs with
  | nil => exact ⟨[], rfl⟩
  | cons x xs ih =>
    cases x with
    | none => exact absurd List.mem_cons_self noNone
    | some y =>
      obtain ⟨ys, rfl⟩ := ih fun later => noNone (List.mem_cons_of_mem _ later)
      exact ⟨y :: ys, rfl⟩

/-! ### Texts written for a phrase -/

/-- A path behind a signed name is among these names. -/
def HasSignedPath (names : List String) : Prop := ∃ n ∈ names, IsSignedPath n

@[simp] theorem hasSignedPath_append {names names' : List String} :
    HasSignedPath (names ++ names') ↔ HasSignedPath names ∨ HasSignedPath names' := by
  simp only [HasSignedPath, List.mem_append]
  grind

@[simp] theorem hasSignedPath_nil : ¬ HasSignedPath [] := nofun

/-- A text that spells the words of a phrase, with a fault exactly if there is one in the names. -/
def Written (names : List String) (P : List Word → Prop) (text : List Char) : Prop :=
  ∃ pieces, Spells text pieces ∧ (none ∈ pieces ↔ HasSignedPath names) ∧
    ∀ ws, Fits ws pieces → P ws

namespace Written

variable {names names' : List String} {P Q : List Word → Prop} {text text' : List Char}

theorem mono (h : Written names P text) (imp : ∀ ws, P ws → Q ws) : Written names Q text :=
  let ⟨pieces, spelled, faults, phrase⟩ := h
  ⟨pieces, spelled, faults, fun ws fits => imp ws (phrase ws fits)⟩

/-- Only the faults among the names matter. -/
theorem congr (h : Written names P text) (same : HasSignedPath names ↔ HasSignedPath names') :
    Written names' P text :=
  let ⟨pieces, spelled, faults, phrase⟩ := h
  ⟨pieces, spelled, faults.trans same, phrase⟩

theorem nil : Written [] (· = []) [] :=
  ⟨[], Spells.nil, by simp, fun _ => fits_nil.mp⟩

theorem append (first : Written names P text) (second : Written names' Q text')
    (apart : IsApart text') :
    Written (names ++ names') (fun ws => ∃ us vs, ws = us ++ vs ∧ P us ∧ Q vs) (text ++ text') := by
  obtain ⟨pieces, spelled, faults, phrase⟩ := first
  obtain ⟨pieces', spelled', faults', phrase'⟩ := second
  refine ⟨pieces ++ pieces', spelled.append spelled' apart, by simp [faults, faults'], ?_⟩
  intro ws fits
  obtain ⟨us, vs, rfl, left, right⟩ := fits_append.mp fits
  exact ⟨us, vs, rfl, phrase us left, phrase' vs right⟩

theorem space (h : Written names P text) : Written names P (' ' :: text) :=
  let ⟨pieces, spelled, faults, phrase⟩ := h
  ⟨pieces, spelled.space, faults, phrase⟩

/-- A token in front of a phrase. -/
private theorem cons {t : Token} (h : Written names P text')
    (whole : ∀ pieces, Spells text' pieces → Spells text (some t :: pieces)) :
    Written names (fun ws => ∃ doc rest, ws = ⟨t, doc⟩ :: rest ∧ P rest) text := by
  obtain ⟨pieces, spelled, faults, phrase⟩ := h
  refine ⟨some t :: pieces, whole pieces spelled, by simp [faults], ?_⟩
  intro ws fits
  obtain ⟨doc, rest, rfl, behind⟩ := fits_cons.mp fits
  exact ⟨doc, rest, rfl, phrase rest behind⟩

theorem mark (h : Written names P text) (m : Mark) :
    Written names (fun ws => ∃ doc rest, ws = ⟨.mark m, doc⟩ :: rest ∧ P rest) (m.char :: text) :=
  cons h fun _ spelled => spelled.mark m

theorem firm {t : Token} (h : Written names P text') (first : IsFirmSpelling text t) :
    Written names (fun ws => ∃ doc rest, ws = ⟨t, doc⟩ :: rest ∧ P rest) (text ++ text') :=
  cons h fun _ spelled => spelled.firm first

theorem word {t : Token} (h : Written names P text') (first : IsSpelling text t)
    (apart : IsApart text') :
    Written names (fun ws => ∃ doc rest, ws = ⟨t, doc⟩ :: rest ∧ P rest) (text ++ text') :=
  cons h fun _ spelled => spelled.word first apart

end Written

/-! ### Lines written for phrases -/

/-- Lines that spell the words of a phrase, with a fault exactly if there is one in the names. -/
def WrittenLines (names : List String) (P : List Word → Prop) (lines : Lines) : Prop :=
  ∃ pieces, lines.Spell pieces ∧ (none ∈ pieces ↔ HasSignedPath names) ∧
    ∀ ws : List Word, ws.map some = pieces → P ws

/-- Whether the first word has this documentation. -/
def IsDocumented (doc : String) (ws : List Word) : Prop := ∀ w ∈ ws.head?, w.doc = doc

theorem none_mem_documented {doc : String} {pieces : List Piece} :
    none ∈ documented doc pieces ↔ none ∈ pieces := by
  have flip {α : Type} (x : Option α) : none = x ↔ x = none := eq_comm
  cases pieces with
  | nil => simp [documented]
  | cons piece pieces => simp [documented, flip]

theorem fits_of_documented {doc : String} {pieces : List Piece} {ws : List Word}
    (h : ws.map some = documented doc pieces) : Fits ws pieces ∧ IsDocumented doc ws := by
  have tokens : (documented doc pieces).map (·.map Word.token) = pieces := by
    cases pieces with
    | nil => rfl
    | cons piece pieces => simp [documented, Function.comp_def]
  constructor
  · -- Documentation is only put on the words, so without it the pieces are left.
    have same := congrArg (List.map (·.map Word.token)) h
    rw [tokens, List.map_map] at same
    exact same
  · intro w first
    cases ws with
    | nil => cases first
    | cons _ ws =>
      cases first
      cases pieces with
      | nil => cases h
      | cons piece pieces =>
        have same : some w = piece.map (fun t => (⟨t, doc⟩ : Word)) := (List.cons.inj h).1
        obtain ⟨t, _, rfl⟩ := Option.map_eq_some_iff.mp same.symm
        rfl

namespace WrittenLines

variable {names names' : List String} {P Q R : List Word → Prop} {lines lines' : Lines}

theorem mono (h : WrittenLines names P lines) (imp : ∀ ws, P ws → Q ws) :
    WrittenLines names Q lines :=
  let ⟨pieces, spelled, faults, phrase⟩ := h
  ⟨pieces, spelled, faults, fun ws same => imp ws (phrase ws same)⟩

theorem congr (h : WrittenLines names P lines) (same : HasSignedPath names ↔ HasSignedPath names') :
    WrittenLines names' P lines :=
  let ⟨pieces, spelled, faults, phrase⟩ := h
  ⟨pieces, spelled, faults.trans same, phrase⟩

theorem nil : WrittenLines [] (· = []) [] :=
  ⟨[], Lines.Spell.nil, by simp, fun _ none => List.map_eq_nil_iff.mp none⟩

theorem append (first : WrittenLines names P lines) (second : WrittenLines names' Q lines') :
    WrittenLines (names ++ names') (fun ws => ∃ us vs, ws = us ++ vs ∧ P us ∧ Q vs)
      (lines ++ lines') := by
  obtain ⟨pieces, spelled, faults, phrase⟩ := first
  obtain ⟨pieces', spelled', faults', phrase'⟩ := second
  refine ⟨pieces ++ pieces', spelled.append spelled', by simp [faults, faults'], ?_⟩
  intro ws same
  obtain ⟨us, vs, rfl, left, right⟩ := List.map_eq_append_iff.mp same
  exact ⟨us, vs, rfl, phrase us left, phrase' vs right⟩

/-- Declarations one after the other are a row of phrases. -/
theorem flatMap {α : Type} {names : α → List String} {P : List Word → α → Prop} {write : α → Lines}
    {xs : List α} (each : ∀ x ∈ xs, WrittenLines (names x) (P · x) (write x)) :
    WrittenLines (xs.flatMap names) (IsSequence P · xs) (xs.flatMap write) := by
  induction xs with
  | nil => exact nil.mono fun _ none => none ▸ .nil
  | cons x xs ih =>
    obtain ⟨first, rest⟩ := List.forall_mem_cons.mp each
    refine (first.append (ih rest)).mono ?_
    rintro _ ⟨us, vs, rfl, phrase, row⟩
    exact .cons phrase row

/-- A line behind its documentation. -/
theorem declaration {doc line : String} (trimmed : IsTrimmed doc)
    (h : Written names P line.toList) (nonempty : ¬ P []) :
    WrittenLines names (fun ws => P ws ∧ IsDocumented doc ws) (docLines doc ++ [line]) := by
  obtain ⟨pieces, spelled, faults, phrase⟩ := h
  have some : pieces ≠ [] := fun none => nonempty (phrase [] none.symm)
  refine ⟨_, .declaration trimmed spelled some, none_mem_documented.trans faults, ?_⟩
  intro ws same
  obtain ⟨fits, doc⟩ := fits_of_documented same
  exact ⟨phrase ws fits, doc⟩

/-- A line without documentation. -/
theorem single {line : String} (h : Written names P line.toList) (nonempty : ¬ P []) :
    WrittenLines names P [line] :=
  (declaration isTrimmed_empty h nonempty).mono fun _ => And.left

/-- A block behind its documentation. -/
theorem block {doc head : String} (trimmed : IsTrimmed doc)
    (h : Written names P (head.toList ++ [' ', '\x7b'])) (nonempty : ¬ P [])
    (inside : WrittenLines names' Q lines) :
    WrittenLines (names ++ names')
      (fun ws => ∃ us vs d, ws = us ++ (vs ++ [⟨.mark .closeBrace, d⟩]) ∧
        (P us ∧ IsDocumented doc us) ∧ Q vs)
      (docLines doc ++ ProtoSchema.block head lines) := by
  obtain ⟨pieces, spelled, faults, phrase⟩ := h
  obtain ⟨pieces', spelled', faults', phrase'⟩ := inside
  have some : pieces ≠ [] := fun none => nonempty (phrase [] none.symm)
  refine ⟨_, .block trimmed spelled some spelled', ?_, ?_⟩
  · simp [none_mem_documented, faults, faults']
  · intro ws same
    obtain ⟨us, rest, rfl, left, right⟩ := List.map_eq_append_iff.mp same
    obtain ⟨vs, closing, rfl, middle, last⟩ := List.map_eq_append_iff.mp right
    obtain ⟨fits, doc⟩ := fits_of_documented left
    obtain ⟨d, _, rfl, none⟩ := fits_cons.mp (fits_of_documented last).1
    cases fits_nil.mp none
    exact ⟨us, vs, d, rfl, ⟨phrase us fits, doc⟩, phrase' vs middle⟩

end WrittenLines

end ProtoSchema
