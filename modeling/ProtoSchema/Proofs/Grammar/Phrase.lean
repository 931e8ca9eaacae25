import ProtoSchema.Reading.Reader

/-!
# Words and phrases

The grammar is about words: tokens with the documentation in front of them, wherever they stand. A
kind of phrase is a relation between the words of a phrase and what they say; phrases of one kind
may stand in a row, with or without commas.
-/

namespace ProtoSchema

/-- A token and the documentation in front of it. -/
structure Word where
  token : Token
  doc : String
  deriving DecidableEq, Repr

/-- A token without its place. -/
def Located.word (t : Located) : Word := ⟨t.token, Reader.docOf t⟩

theorem Located.word_eq_iff {t : Located} {token : Token} {doc : String} :
    t.word = ⟨token, doc⟩ ↔ t.token = token ∧ Reader.docOf t = doc := by
  simp [Located.word]

/-- The words of a text, if it is without lexical faults. -/
def TokenStream.words? (s : TokenStream) : Option (List Word) :=
  match s.ending with
  | .finished _ => some (s.tokens.map Located.word)
  | .failed _ => none

/-- The identifier that a keyword is. -/
def Keyword.token (k : Keyword) : Token := .ident k.spelling

theorem Token.keyword?_eq_some_iff {t : Token} {k : Keyword} :
    t.keyword? = some k ↔ t = k.token := by
  constructor
  · intro h
    cases t with
    | ident name => rw [Keyword.token, Keyword.spelling_of_ofSpelling? h]
    | _ => cases h
  · rintro rfl
    exact Keyword.ofSpelling?_spelling k

theorem Keyword.token_injective {k l : Keyword} (h : k.token = l.token) : k = l := by
  have same := Token.keyword?_eq_some_iff.mpr h
  rw [Token.keyword?_eq_some_iff.mpr rfl] at same
  exact Option.some.inj same

/-- The word that begins a map field is no keyword. -/
theorem Keyword.spelling_ne_map (k : Keyword) : k.spelling ≠ "map" := by
  cases k <;> decide

namespace Grammar

variable {α : Type}

/-- Phrases of one kind in a row. -/
inductive IsSequence (P : List Word → α → Prop) : List Word → List α → Prop
  | nil : IsSequence P [] []
  | cons {ws ws' : List Word} {x : α} {xs : List α} :
      P ws x → IsSequence P ws' xs → IsSequence P (ws ++ ws') (x :: xs)

/-- Phrases of one kind, at least one, with commas between them. -/
inductive IsCommaList (P : List Word → α → Prop) : List Word → List α → Prop
  | last {ws : List Word} {x : α} : P ws x → IsCommaList P ws [x]
  | more {ws ws' : List Word} {x : α} {xs : List α} {doc : String} :
      P ws x → IsCommaList P ws' xs → IsCommaList P (ws ++ ⟨.mark .comma, doc⟩ :: ws') (x :: xs)

namespace IsSequence

variable {P Q : List Word → α → Prop} {ws ws' : List Word} {xs ys : List α}

theorem append (left : IsSequence P ws xs) (right : IsSequence P ws' ys) :
    IsSequence P (ws ++ ws') (xs ++ ys) := by
  induction left with
  | nil => exact right
  | cons first _ ih =>
    rw [List.append_assoc]
    exact .cons first ih

theorem single {x : α} (h : P ws x) : IsSequence P ws [x] := by
  simpa using IsSequence.cons h .nil

/-- Each member of a row is a phrase made of words of the row. -/
theorem exists_of_mem (h : IsSequence P ws xs) {x : α} (member : x ∈ xs) :
    ∃ part, part ⊆ ws ∧ P part x := by
  induction h with
  | nil => cases member
  | @cons part rest y ys first _ ih =>
    rcases List.mem_cons.mp member with rfl | later
    · exact ⟨part, List.subset_append_left _ _, first⟩
    · obtain ⟨part', inside, phrase⟩ := ih later
      exact ⟨part', List.Subset.trans inside (List.subset_append_right _ _), phrase⟩

theorem mono (h : IsSequence P ws xs) (imp : ∀ ws, ∀ x ∈ xs, P ws x → Q ws x) :
    IsSequence Q ws xs := by
  induction h with
  | nil => exact .nil
  | cons first _ ih =>
    exact .cons (imp _ _ List.mem_cons_self first)
      (ih fun ws y member => imp ws y (List.mem_cons_of_mem _ member))

theorem map {β : Type} {R : List Word → β → Prop} {g : α → β} (h : IsSequence P ws xs)
    (imp : ∀ ws x, P ws x → R ws (g x)) : IsSequence R ws (xs.map g) := by
  induction h with
  | nil => exact .nil
  | cons first _ ih => exact .cons (imp _ _ first) ih

theorem and_iff {p : α → Prop} :
    IsSequence (fun ws x => P ws x ∧ p x) ws xs ↔ IsSequence P ws xs ∧ ∀ x ∈ xs, p x := by
  constructor
  · intro h
    exact ⟨h.mono fun _ _ _ both => both.1,
      fun x member => (h.exists_of_mem member).elim fun _ found => found.2.2⟩
  · rintro ⟨h, holds⟩
    exact h.mono fun _ x member phrase => ⟨phrase, holds x member⟩

end IsSequence

namespace IsCommaList

variable {P Q : List Word → α → Prop} {ws : List Word} {xs : List α}

theorem ne_nil (h : IsCommaList P ws xs) : xs ≠ [] := by
  cases h <;> simp

/-- A phrase behind a comma. -/
inductive Behind (P : List Word → α → Prop) : List Word → α → Prop
  | intro {ws : List Word} {x : α} {doc : String} : P ws x → Behind P (⟨.mark .comma, doc⟩ :: ws) x

/-- Phrases with commas between them are a phrase and a row of phrases behind commas. -/
theorem cons_iff {x : α} :
    IsCommaList P ws (x :: xs) ↔
      ∃ first rest, ws = first ++ rest ∧ P first x ∧ IsSequence (Behind P) rest xs := by
  induction xs generalizing ws x with
  | nil =>
    constructor
    · intro h
      cases h with
      | last only => exact ⟨ws, [], by simp, only, .nil⟩
      | more _ rest => exact absurd rfl rest.ne_nil
    · rintro ⟨first, _, rfl, only, row⟩
      cases row
      rw [List.append_nil]
      exact .last only
  | cons y ys ih =>
    constructor
    · intro h
      cases h with
      | more phrase more =>
        obtain ⟨first, rest, rfl, phrase', row⟩ := ih.mp more
        exact ⟨_, _, rfl, phrase, .cons (.intro phrase') row⟩
    · rintro ⟨first, _, rfl, phrase, row⟩
      cases row with
      | cons second row =>
        cases second with
        | intro phrase' => exact .more phrase (ih.mpr ⟨_, _, rfl, phrase', row⟩)

theorem exists_of_mem (h : IsCommaList P ws xs) {x : α} (member : x ∈ xs) :
    ∃ part, part ⊆ ws ∧ P part x := by
  induction h with
  | last only =>
    cases List.mem_singleton.mp member
    exact ⟨_, List.Subset.refl _, only⟩
  | @more part rest y ys doc first _ ih =>
    rcases List.mem_cons.mp member with rfl | later
    · exact ⟨part, List.subset_append_left _ _, first⟩
    · obtain ⟨part', inside, phrase⟩ := ih later
      exact ⟨part', fun w h => by simp [inside h], phrase⟩

theorem mono (h : IsCommaList P ws xs) (imp : ∀ ws, ∀ x ∈ xs, P ws x → Q ws x) :
    IsCommaList Q ws xs := by
  induction h with
  | last only => exact .last (imp _ _ List.mem_cons_self only)
  | more first _ ih =>
    exact .more (imp _ _ List.mem_cons_self first)
      (ih fun ws y member => imp ws y (List.mem_cons_of_mem _ member))

theorem and_iff {p : α → Prop} :
    IsCommaList (fun ws x => P ws x ∧ p x) ws xs ↔ IsCommaList P ws xs ∧ ∀ x ∈ xs, p x := by
  constructor
  · intro h
    exact ⟨h.mono fun _ _ _ both => both.1,
      fun x member => (h.exists_of_mem member).elim fun _ found => found.2.2⟩
  · rintro ⟨h, holds⟩
    exact h.mono fun _ x member phrase => ⟨phrase, holds x member⟩

end IsCommaList

end Grammar

end ProtoSchema
