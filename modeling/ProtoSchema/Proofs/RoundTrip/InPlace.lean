import ProtoSchema.Proofs.Lexing.Exact
import ProtoSchema.Proofs.Reading.Nesting
import ProtoSchema.Proofs.RoundTrip.Value

/-!
# Values are read back in place

A value that is written in front of a mark is read back from there: it takes up the text that was
written for it and nothing behind it, and all that it opens is closed again.
-/

namespace ProtoSchema

open Reader Grammar NestingEvent

/-! ### What is read from a written value -/

theorem Value.getLast?_text_list (items : List Value) :
    (Value.list items).text.toList.getLast? = some ']' := by
  have whole : (Value.list items).text.toList =
      '[' :: (commaList (items.map Value.text)).toList ++ [']'] := by
    simp [text, texts_eq_map]
  rw [whole, List.getLast?_concat]

theorem Value.getLast?_text_map (entries : List Setting) :
    (Value.map entries).text.toList.getLast? = some '\x7d' := by
  cases entries with
  | nil => rfl
  | cons entry entries =>
    have whole : (Value.map (entry :: entries)).text.toList = '\x7b' :: ' ' ::
        ((commaList ((entry :: entries).map Setting.entryText)).toList ++ [' ']) ++ ['\x7d'] := by
      simp [text, Setting.entryTexts_eq_map]
    rw [whole, List.getLast?_concat]

namespace Value

variable {v : Value}

/-- The words of a value are read from its text, exactly. -/
theorem Writable.readsExactly (h : v.Writable) (unsigned : ∀ n ∈ v.settingNames, ¬ IsSignedPath n) :
    ∃ ts, ReadsExactly v.text.toList ts ∧
      ∀ ws : List Word, ws.map Word.token = ts → IsValue ws v := by
  have spelled : ∃ ts : List Token, Spells v.text.toList (ts.map some) ∧
      ∀ ws : List Word, ws.map Word.token = ts → IsValue ws v := by
    obtain ⟨pieces, spelled, faults, phrase⟩ := Value.written v h
    have noFault : none ∉ pieces := by
      rw [faults]
      rintro ⟨n, member, signed⟩
      exact unsigned n member signed
    obtain ⟨ts, rfl⟩ := exists_map_some noFault
    refine ⟨ts, spelled, fun ws tokens => phrase ws ?_⟩
    rw [Fits, ← tokens, List.map_map]
    rfl
  -- Lists and maps end with their closing brackets, and all other values are single tokens.
  cases v with
  | list items =>
    obtain ⟨ts, spelled, phrase⟩ := spelled
    exact ⟨ts, spelled.readsExactly (getLast?_text_list items) (by decide), phrase⟩
  | map entries =>
    obtain ⟨ts, spelled, phrase⟩ := spelled
    exact ⟨ts, spelled.readsExactly (getLast?_text_map entries) (by decide), phrase⟩
  | int | float | str | bytes | ident =>
    obtain ⟨t, spelling, phrase⟩ := exists_isSpelling h rfl
    refine ⟨[t], spelling.readsExactly, fun ws tokens => ?_⟩
    obtain ⟨⟨_, doc⟩, rfl, rfl⟩ := List.map_eq_singleton_iff.mp tokens
    exact phrase doc

end Value

/-! ### What is opened and closed -/

/-- What is read within a limit is read without it, and all that is opened is closed again. -/
theorem Tracer.Follows.of_reads {α : Type} {ending : Ending} {size room : Nat} {reader : Reader α}
    {tracer : Tracer α} {ts rest : List Located} {v : α}
    (h : Follows ending size room reader tracer) (short : ts.length ≤ size)
    (reads : Reads reader ending ts v rest) :
    ∃ events, tracer ending ts = (.ok (v, rest), events) ∧ level events = 0 ∧
      StaysWithin room events := by
  have limited := h ts short
  unfold FollowsAt at limited
  rw [show (reader.run ending).run ts = .ok (v, rest) from reads] at limited
  generalize tracer ending ts = traced at limited
  obtain ⟨outcome, events⟩ := traced
  rcases limited.same with ⟨fits, same⟩ | ⟨_, _, same⟩
  · cases same
    exact ⟨events, rfl, (limited.settled v rest rfl).2, fits⟩
  · cases same

/-! ### In place -/

namespace Reading

/-- A value that is written in front of a mark is read back, wherever it stands and however many
levels are open there, as long as it does not open too many and no name in it is a path behind a sign.
The gap and the mark are left, and as many levels are open behind the value as in front of it. -/
theorem value_in_place {v : Value} {depth : Nat} {l : Lexer} {gap tail : List Char} {m : Mark}
    (writable : v.Writable) (unsigned : ∀ n ∈ v.settingNames, ¬ IsSignedPath n)
    (room : depth + v.depth ≤ nestingLimit) (isGap : IsGap gap)
    (whole : l.rest = v.text.toList ++ (gap ++ m.char :: tail)) :
    ∃ after : Lexer, after.rest = gap ++ m.char :: tail ∧
      after.position = l.position.advance v.text.toList ∧ l.run.ending = after.run.ending ∧
      Reads (value (nestingLimit - depth)) l.run.ending l.run.tokens v after.run.tokens ∧
      (∃ doc, after.run.tokens.head? = some ⟨.mark m, after.position.advance gap, doc⟩) ∧
      ∃ events, Unlimited.value l.run.tokens.length l.run.ending l.run.tokens =
          (.ok (v, after.run.tokens), events) ∧
        level events = 0 ∧ StaysWithin (nestingLimit - depth : Nat) events := by
  have apart : IsApart (gap ++ m.char :: tail) :=
    isGap.isApart.append (isApart_cons.mpr (by cases m <;> rfl))
  obtain ⟨ts, exact', phrase⟩ := writable.readsExactly unsigned
  obtain ⟨used, after, gives, more, tokens, rest⟩ := exact' l _ whole apart
  have run := gives.run more
  have proper := after.run_isProper.1
  -- The mark comes next, so nothing behind the value could belong to it.
  have next := Lexer.next_of_gap isGap (rest : after.rest = gap ++ ([m.char] ++ tail))
    ((isFirmSpelling_mark m).2 tail)
  have mark := Lexer.run_of_next next nofun
  have ends : Sees (partOf? · = none) after.run.ending after.run.tokens := by
    rw [mark]
    exact ⟨_, rfl, rfl⟩
  have isValue : IsValueWithin (nestingLimit - depth) (used.map Located.word) v := by
    refine ⟨phrase _ ?_, by omega⟩
    rw [← tokens, List.map_map]
    rfl
  have reads : Reads (value (nestingLimit - depth)) l.run.ending l.run.tokens v after.run.tokens := by
    rw [run]
    exact (accepts_value _ proper).complete ⟨used, rfl, rfl⟩ isValue ends
  refine ⟨after, rest, ?_, by rw [run], reads, ?_, ?_⟩
  · exact gives.position (rest ▸ whole)
  · rw [mark]
    exact ⟨_, rfl⟩
  · exact (follows_value l.run_isProper.1 _ _).of_reads (Nat.le_refl _) reads

/-- An empty list under a name in brackets, and a list with a sign in a map. -/
def nestedValue : Value :=
  .map [⟨"[a.b]", .list []⟩, ⟨"(c).d", .map [⟨"e", .list [.int (-1), .ident "-inf"]⟩]⟩]

def nestedText : List Char :=
  "\x7b [a.b]: [], (c).d: \x7b e: [-1, -inf] \x7d \x7d ;".toList

/-- Three levels are all that may be opened where 97 are open. -/
theorem nestedText_value :
    ∃ after : Lexer, after.rest = [' ', ';'] ∧
      Reads (value 3) (Lexer.ofText {} nestedText).run.ending
        (Lexer.ofText {} nestedText).run.tokens nestedValue after.run.tokens := by
  have ident (name : String) (letters : isNameText name.toList = true) : IsIdent name := .inl letters
  have bracketed : IsKeyText "[a.b]" := .extension (ident "a.b" (by decide))
  have custom : IsKeyText "(c).d" :=
    .option (@IsOptionText.extension "c" ".d" (ident "c" (by decide)) (.inr (by decide)))
  have plain : IsKeyText "e" :=
    .option (@IsOptionText.plain "e" "" (ident "e" (by decide)) (.inl rfl))
  have small : Int.natAbs (-1) < Numeral.integerBound := by decide
  have writable : nestedValue.Writable :=
    ⟨⟨bracketed, trivial⟩, ⟨custom, ⟨plain, small, .inr (.inl rfl), trivial⟩, trivial⟩, trivial⟩
  have unsigned : ∀ n ∈ nestedValue.settingNames, ¬ IsSignedPath n := by decide
  have whole : nestedText = nestedValue.text.toList ++ [' ', ';'] := by decide +kernel
  obtain ⟨after, rest, -, -, reads, -⟩ :=
    @value_in_place nestedValue 97 (Lexer.ofText {} nestedText) [' '] [] .semicolon writable unsigned
      (by decide) (.blank (by decide) .nil) whole
  exact ⟨after, rest, reads⟩

end Reading

end ProtoSchema
