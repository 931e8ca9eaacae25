import ProtoSchema.Proofs.Lexing.Spelling

/-!
# Filler that is read back

What the pieces of filler have in common that are read from a text, and that a piece like that is
read again wherever it is written. Only a line comment needs a line feed or the end behind it.
-/

namespace ProtoSchema.Filler

/-- A piece that can be read from a text. -/
def IsProper : Filler → Prop
  | newline => True
  | blank c => isSpace c = true
  | lineComment text => '\n' ∉ text
  | blockComment text => ¬ ['*', '/'] <:+: text

/-- What may follow a piece: a line comment runs up to the end of its line. -/
def MayPrecede : Filler → List Char → Prop
  | lineComment _, rest => ∀ c ∈ rest.head?, c = '\n'
  | _, _ => True

theorem splitAtClose_append {text : List Char} (inside : ¬ ['*', '/'] <:+: text)
    (rest : List Char) : splitAtClose (text ++ '*' :: '/' :: rest) = some (text, rest) := by
  induction text with
  | nil => rfl
  | cons c text ih =>
    have later : ¬ ['*', '/'] <:+: text := fun h => inside (h.trans (List.suffix_cons c text).isInfix)
    -- The end does not come at once: neither within the text nor across its last character.
    have open' : ¬ ∃ after, c :: (text ++ '*' :: '/' :: rest) = '*' :: '/' :: after := by
      rintro ⟨after, same⟩
      cases text with
      | nil => cases same
      | cons d text =>
        cases same
        exact inside ⟨[], text, rfl⟩
    rw [List.cons_append, splitAtClose.eq_3, ih later]
    · rfl
    · intro after first tail
      exact open' ⟨after, by rw [first, tail]⟩

theorem not_isInfix_of_splitAtClose {cs text after : List Char}
    (h : splitAtClose cs = some (text, after)) : ¬ ['*', '/'] <:+: text := by
  fun_induction splitAtClose cs generalizing text with
  | case1 => cases h
  | case2 rest =>
    cases h
    simp
  | case3 c rest other ih =>
    obtain ⟨⟨text', after'⟩, found, same⟩ := Option.map_eq_some_iff.mp h
    cases same
    intro inside
    rcases List.infix_cons_iff.mp inside with first | later
    · -- An end across the first character would be one of the whole text.
      obtain ⟨tail, same⟩ := first
      cases same
      exact other _ rfl (by rw [splitAtClose_eq found]; rfl)
    · exact ih found later

theorem isProper_of_first? {cs rest : List Char} {f : Filler} (h : first? cs = some (f, rest)) :
    f.IsProper ∧ f.MayPrecede rest := by
  unfold first? at h
  split at h
  next => cases h
  next =>
    cases h
    exact ⟨trivial, trivial⟩
  next line =>
    cases h
    refine ⟨fun inside => ?_, fun c first => ?_⟩
    · simpa using List.all_eq_true.mp (List.all_takeWhile ..) _ inside
    · have stop := List.head?_dropWhile_not (fun c : Char => decide (c ≠ '\n')) line
      rw [Option.mem_def.mp first] at stop
      simpa using stop
  next =>
    obtain ⟨⟨text, after⟩, found, same⟩ := Option.map_eq_some_iff.mp h
    cases same
    exact ⟨not_isInfix_of_splitAtClose found, trivial⟩
  next =>
    split at h
    next space =>
      cases h
      exact ⟨space, trivial⟩
    next => cases h

theorem isProper_of_mem_scan {cs : List Char} : ∀ f ∈ (scan cs).1, f.IsProper := by
  fun_induction scan cs with
  | case1 => exact List.forall_mem_nil _
  | case2 cs f rest first fillers after same ih =>
    rw [same] at ih
    exact List.forall_mem_cons.mpr ⟨(isProper_of_first? first).1, ih⟩

/-- A piece is read wherever it is written. -/
theorem first?_spelling {f : Filler} (proper : f.IsProper) {rest : List Char}
    (behind : f.MayPrecede rest) : first? (f.spelling ++ rest) = some (f, rest) := by
  cases f with
  | newline => rfl
  | blank c =>
    have space : isSpace c = true := proper
    have other : c ≠ '\n' ∧ c ≠ '/' := by
      constructor <;> rintro rfl <;> cases space
    unfold first?
    simp only [spelling, List.singleton_append]
    split <;> simp_all
  | lineComment text =>
    have inside : ∀ c ∈ text, decide (c ≠ '\n') = true := fun c member =>
      decide_eq_true fun newline => proper (newline ▸ member)
    have stop : ∀ c ∈ rest.head?, decide (c ≠ '\n') = false := fun c first => by
      simpa using behind c first
    obtain ⟨taken, left⟩ := takeWhile_append_of_head? inside stop
    simp only [spelling, List.cons_append, first?, taken, left]
  | blockComment text =>
    have closed := @splitAtClose_append text proper rest
    simp [spelling, first?, closed]

end ProtoSchema.Filler
