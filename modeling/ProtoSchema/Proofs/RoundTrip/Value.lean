import ProtoSchema.Proofs.Grammar.Value
import ProtoSchema.Proofs.RoundTrip.Written

/-!
# Option names and values are read back

Names, keys, values and settings that can be written are written for the phrases that they are.
-/

namespace ProtoSchema

open Grammar

/-! ### Names -/

theorem IsIdent.not_isSignedPath {name : String} (h : IsIdent name) : ¬ IsSignedPath name := by
  rintro ⟨sign, point⟩
  rcases h with plain | rfl | rfl
  · simp only [isNameText, Bool.and_eq_true] at plain
    cases chars : name.toList with
    | nil => simp [chars] at sign
    | cons c rest =>
      have same : c = '-' := by simpa [chars] using sign
      subst same
      rw [chars] at plain
      cases plain.1
  · exact absurd point (by decide)
  · exact absurd point (by decide)

/-- A word for a name without a path behind a sign. -/
theorem IsIdent.written {name : String} (h : IsIdent name) :
    Written [name] (fun ws => ∃ doc, ws = [⟨.ident name, doc⟩]) name.toList := by
  have word := Written.nil.word h.isSpelling isApart_nil
  rw [List.append_nil] at word
  refine (word.congr ?_).mono ?_
  · simpa [HasSignedPath] using h.not_isSignedPath
  · rintro _ ⟨doc, _, rfl, rfl⟩
    exact ⟨doc, rfl⟩

theorem isNameText_append {base path : String} (first : isNameText base.toList = true)
    (second : isNameText path.toList = true) : isNameText (base ++ path).toList = true := by
  simp only [isNameText, Bool.and_eq_true, String.toList_append, List.all_append] at *
  exact ⟨startsName_append first.1 _, first.2, second.2⟩

theorem IsPathText.written {path : String} (h : IsPathText path) :
    Written [] (IsPath · path) path.toList := by
  rcases h with rfl | ⟨name, suffix⟩
  · exact Written.nil.mono fun _ none => none ▸ .nil
  · have ident : IsIdent path := .inl name
    refine (ident.written.congr ?_).mono ?_
    · simpa [HasSignedPath] using ident.not_isSignedPath
    · rintro _ ⟨doc, rfl⟩
      have phrase : IsPath [⟨.ident path, doc⟩] (path ++ "") := .cons suffix .nil
      rwa [String.append_empty] at phrase

private theorem written_signedPath {base path : String} (known : base = "-inf" ∨ base = "-nan")
    (name : isNameText path.toList = true) (suffix : Reading.isSuffix path = true)
    (P : List Word → Prop) : Written [base ++ path] P (base ++ path).toList := by
  simp only [isNameText, Bool.and_eq_true, List.all_eq_true] at name
  have more : path.toList ≠ [] := by
    intro none
    simp [Reading.isSuffix, none] at suffix
  have faulty : Spells (base ++ path).toList [none] := by
    rw [String.toList_append]
    rcases known with rfl | rfl
    · exact spells_signedPath (.inl rfl) name.2 more
    · exact spells_signedPath (.inr rfl) name.2 more
  have signed : IsSignedPath (base ++ path) := by
    constructor
    · rw [String.toList_append]
      rcases known with rfl | rfl <;> rfl
    · rw [String.toList_append, List.mem_append]
      exact .inr (List.mem_of_mem_head? (by simpa [Reading.isSuffix] using suffix))
  refine ⟨[none], faulty, by simpa [HasSignedPath] using signed, fun ws fits => ?_⟩
  cases ws <;> simp [Fits] at fits

private theorem isOptionName_single (name doc : String) :
    IsOptionName [⟨.ident name, doc⟩] name := by
  have phrase : IsOptionName [⟨.ident name, doc⟩] (name ++ "") := .plain .nil
  rwa [String.append_empty] at phrase

theorem IsOptionText.written {name : String} (h : IsOptionText name) :
    Written [name] (IsOptionName · name) name.toList := by
  cases h with
  | @plain base path ident path' =>
    rcases path' with rfl | ⟨name, suffix⟩
    · rw [String.append_empty]
      refine ident.written.mono ?_
      rintro _ ⟨doc, rfl⟩
      exact isOptionName_single _ doc
    · rcases ident with plain | signed
      · have whole : IsIdent (base ++ path) := .inl (isNameText_append plain name)
        refine whole.written.mono ?_
        rintro _ ⟨doc, rfl⟩
        exact isOptionName_single _ doc
      · exact written_signedPath signed name suffix _
  | @extension inner path ident path' =>
    have word := (path'.written.mark .closeParen).word ident.isSpelling (isApart_cons.mpr rfl)
    have whole : ("(" ++ inner ++ ")" ++ path).toList =
        '(' :: (inner.toList ++ ')' :: path.toList) := by simp
    rw [whole]
    refine ((word.mark .openParen).congr ?_).mono ?_
    · have unsigned : ¬ IsSignedPath ("(" ++ inner ++ ")" ++ path) := by
        rintro ⟨sign, _⟩
        rw [whole] at sign
        cases sign
      simpa [HasSignedPath] using unsigned
    · rintro _ ⟨doc, _, rfl, doc', _, rfl, doc'', ws, rfl, phrase⟩
      exact .extension phrase

theorem IsKeyText.written {name : String} (h : IsKeyText name) :
    Written [name] (IsKey · name) name.toList := by
  cases h with
  | option h => exact h.written.mono fun _ phrase => .option phrase
  | @extension inner ident =>
    have word := (Written.nil.mark .closeBracket).word ident.isSpelling (isApart_cons.mpr rfl)
    have whole : ("[" ++ inner ++ "]").toList = '[' :: (inner.toList ++ [']']) := by simp
    rw [whole]
    refine ((word.mark .openBracket).congr ?_).mono ?_
    · have unsigned : ¬ IsSignedPath ("[" ++ inner ++ "]") := by
        rintro ⟨sign, _⟩
        rw [whole] at sign
        cases sign
      simpa [HasSignedPath] using unsigned
    · rintro _ ⟨doc, _, rfl, doc', _, rfl, doc'', _, rfl, rfl⟩
      exact .extension

/-! ### Lists with commas -/

theorem written_commaList {α : Type} {names : α → List String} {P : List Word → α → Prop}
    {text : α → String} {xs : List α} (nonempty : xs ≠ [])
    (each : ∀ x ∈ xs, Written (names x) (P · x) (text x).toList) :
    Written (xs.flatMap names) (IsCommaList P · xs) (commaList (xs.map text)).toList := by
  induction xs with
  | nil => exact absurd rfl nonempty
  | cons x xs ih =>
    obtain ⟨first, each⟩ := List.forall_mem_cons.mp each
    cases xs with
    | nil =>
      have whole : commaList [text x] = text x := String.intercalate_singleton
      have names' : [x].flatMap names = names x := by simp
      rw [List.map_singleton, whole, names']
      exact first.mono fun _ phrase => .last phrase
    | cons y ys =>
      have rest := ((ih nofun each).space.mark .comma)
      have whole : (commaList ((x :: y :: ys).map text)).toList =
          (text x).toList ++ ',' :: ' ' :: (commaList ((y :: ys).map text)).toList := by
        have split : commaList ((x :: y :: ys).map text) =
            text x ++ ", " ++ commaList ((y :: ys).map text) := String.intercalate_cons_cons
        rw [split]
        simp
      rw [whole, List.flatMap_cons]
      refine (first.append rest (isApart_cons.mpr rfl)).mono ?_
      rintro _ ⟨us, _, rfl, phrase, doc, ws, rfl, list⟩
      exact .more phrase list

/-! ### Values -/

/-- An entry of a map without what separates it from the next one. -/
private def IsBareEntry (ws : List Word) (s : Setting) : Prop :=
  ∃ ks doc vs, ws = ks ++ ⟨.mark .colon, doc⟩ :: vs ∧ IsKey ks s.name ∧ IsValue vs s.value

/-- Commas between entries are what separates them. -/
private theorem isSequence_of_isCommaList {ws : List Word} {ss : List Setting}
    (h : IsCommaList IsBareEntry ws ss) : IsSequence IsEntry ws ss := by
  have entry {ws sep : List Word} {s : Setting} (bare : IsBareEntry ws s) (separator : IsSeparator sep) :
      IsEntry (ws ++ sep) s := by
    obtain ⟨ks, doc, vs, rfl, key, value⟩ := bare
    cases s
    rw [List.append_assoc, List.cons_append]
    exact .colon key value separator
  induction h with
  | last only => simpa using IsSequence.single (entry only .none)
  | @more _ _ _ _ doc first _ ih =>
    have comma : IsSeparator [⟨.mark .comma, doc⟩] := .comma
    simpa using IsSequence.cons (entry first comma) ih

/-- A value that is no list and no map is written as one word. -/
theorem Value.exists_isSpelling {v : Value} (h : v.Writable) (flat : v.depth = 0) :
    ∃ t, IsSpelling v.text.toList t ∧ ∀ doc, IsValue [⟨t, doc⟩] v := by
  -- A literal is the value that its bytes are.
  have literal {bytes : List UInt8} {v : Value} (value : Reading.valueOfBytes bytes = v)
      (doc : String) : IsValue [⟨.str bytes, doc⟩] v := value ▸ .literal .last
  cases v with
  | int n =>
    rw [text]
    exact ⟨_, isSpelling_int h, fun _ => .int⟩
  | float x =>
    rw [text, String.toList_ofList]
    exact ⟨_, isSpelling_float h, fun _ => .float⟩
  | str text =>
    rw [Value.text, String.toList_ofList]
    refine ⟨_, (isFirmSpelling_text _).isSpelling, literal ?_⟩
    rw [Reading.valueOfBytes, Utf8.decode?_encode]
  | bytes bytes =>
    have none : Utf8.decode? bytes = none := h
    rw [text, String.toList_ofList]
    refine ⟨_, (isFirmSpelling_bytes _).isSpelling, literal ?_⟩
    rw [Reading.valueOfBytes, none]
  | ident name =>
    rw [text]
    exact ⟨_, IsIdent.isSpelling h, fun _ => .ident⟩
  | list | map => simp [depth] at flat

private theorem written_flat {v : Value} (h : v.Writable) (flat : v.depth = 0) :
    Written [] (IsValue · v) v.text.toList := by
  obtain ⟨t, spelling, phrase⟩ := Value.exists_isSpelling h flat
  have word := Written.nil.word spelling isApart_nil
  rw [List.append_nil] at word
  refine word.mono ?_
  rintro _ ⟨doc, _, rfl, rfl⟩
  exact phrase doc

/-- A list is read back if its items are. -/
private theorem written_list {items : List Value}
    (each : ∀ v ∈ items, Written v.settingNames (IsValue · v) v.text.toList) :
    Written (Value.list items).settingNames (IsValue · (.list items))
      (Value.list items).text.toList := by
  rw [Value.text, Value.texts_eq_map, Value.settingNames, Value.allSettingNames_eq_flatMap]
  by_cases empty : items = []
  · subst empty
    refine ((Written.nil.mark .closeBracket).mark .openBracket).mono ?_
    rintro _ ⟨doc, _, rfl, doc', _, rfl, rfl⟩
    exact .emptyList
  · have list := written_commaList empty each
    have closed := list.append (Written.nil.mark .closeBracket) (isApart_cons.mpr rfl)
    have whole : ("[" ++ commaList (items.map Value.text) ++ "]").toList =
        '[' :: ((commaList (items.map Value.text)).toList ++ [']']) := by simp
    rw [whole]
    refine ((closed.mark .openBracket).congr (by simp)).mono ?_
    rintro _ ⟨doc, _, rfl, ws, _, rfl, phrase, doc', _, rfl, rfl⟩
    exact .list phrase

/-- A map is read back if its entries are. -/
private theorem written_map {entries : List Setting}
    (each : ∀ s ∈ entries, Written s.settingNames (IsBareEntry · s) s.entryText.toList) :
    Written (Value.map entries).settingNames (IsValue · (.map entries))
      (Value.map entries).text.toList := by
  cases entries with
  | nil =>
    rw [Value.text, Value.settingNames]
    refine ((Written.nil.mark .closeBrace).mark .openBrace).mono ?_
    rintro _ ⟨doc, _, rfl, doc', _, rfl, rfl⟩
    exact .braces .nil
  | cons entry entries =>
    rw [Value.text, ← Setting.entryTexts, Setting.entryTexts_eq_map, Value.settingNames,
      Setting.allSettingNames_eq_flatMap]
    have list := written_commaList (List.cons_ne_nil _ _) each
    have closed := list.append (Written.nil.mark .closeBrace).space (isApart_cons.mpr rfl)
    have whole : ("\x7b " ++ commaList ((entry :: entries).map Setting.entryText) ++ " \x7d").toList =
        '\x7b' :: ' ' :: ((commaList ((entry :: entries).map Setting.entryText)).toList ++
          [' ', '\x7d']) := by simp
    rw [whole]
    refine ((closed.space.mark .openBrace).congr (by simp)).mono ?_
    rintro _ ⟨doc, _, rfl, ws, _, rfl, phrase, doc', _, rfl, rfl⟩
    exact .braces (isSequence_of_isCommaList phrase)

mutual

/-- A value that can be written is read back. -/
theorem Value.written (v : Value) (h : v.Writable) :
    Written v.settingNames (IsValue · v) v.text.toList := by
  match v with
  | .int _ | .float _ | .str _ | .bytes _ | .ident _ => exact written_flat h rfl
  | .list items => exact written_list (Value.written_of_mem items h)
  | .map entries => exact written_map (Setting.written_of_mem entries h)
termination_by structural v

theorem Value.written_of_mem (vs : List Value) (h : Value.AllWritable vs) :
    ∀ v ∈ vs, Written v.settingNames (IsValue · v) v.text.toList := by
  match vs with
  | [] => exact nofun
  | v :: vs =>
    exact List.forall_mem_cons.mpr ⟨Value.written v h.1, Value.written_of_mem vs h.2⟩
termination_by structural vs

theorem Setting.written_entry (s : Setting) (h : s.IsWritableEntry) :
    Written s.settingNames (IsBareEntry · s) s.entryText.toList := by
  match s with
  | ⟨name, value⟩ =>
    have key : Written [name] (IsKey · name) name.toList := IsKeyText.written h.1
    have assigned := (Value.written value h.2).space.mark .colon
    have whole : (Setting.entryText ⟨name, value⟩).toList =
        name.toList ++ ':' :: ' ' :: value.text.toList := by simp [Setting.entryText]
    rw [whole, Setting.settingNames]
    refine (key.append assigned (isApart_cons.mpr rfl)).mono ?_
    rintro _ ⟨ks, _, rfl, isKey, doc, vs, rfl, isValue⟩
    exact ⟨ks, doc, vs, rfl, isKey, isValue⟩
termination_by structural s

theorem Setting.written_of_mem (ss : List Setting) (h : Setting.AllWritable ss) :
    ∀ s ∈ ss, Written s.settingNames (IsBareEntry · s) s.entryText.toList := by
  match ss with
  | [] => exact nofun
  | s :: ss =>
    exact List.forall_mem_cons.mpr ⟨Setting.written_entry s h.1, Setting.written_of_mem ss h.2⟩
termination_by structural ss

end

/-! ### Settings -/

theorem Keyword.isIdent (k : Keyword) : IsIdent k.spelling := by
  cases k <;> exact .inl (by decide)

/-- A keyword is read as the word that it is. -/
theorem Keyword.isSpelling (k : Keyword) : IsSpelling k.spelling.toList k.token :=
  k.isIdent.isSpelling

namespace Setting

variable {s : Setting} {options : List Setting}

theorem Writable.written (h : s.Writable) :
    Written s.settingNames (IsSetting · s) s.text.toList := by
  obtain ⟨name, value⟩ := s
  have assigned := (Value.written value h.value).space.mark .equals
  have whole : (Setting.text ⟨name, value⟩).toList =
      name.toList ++ ' ' :: '=' :: ' ' :: value.text.toList := by simp [Setting.text]
  rw [whole, Setting.settingNames]
  refine (h.name.written.append assigned.space (isApart_cons.mpr rfl)).mono ?_
  rintro _ ⟨ns, _, rfl, isName, doc, vs, rfl, isValue⟩
  exact .intro isName isValue

/-- An option statement is read back. -/
theorem Writable.written_line (h : s.Writable) :
    Written s.settingNames (IsOptionStatement · s) s.line.toList := by
  have closed := h.written.append (Written.nil.mark .semicolon) (isApart_cons.mpr rfl)
  have word := closed.space.word Keyword.optionWord.isSpelling (isApart_cons.mpr rfl)
  have whole : s.line.toList = Keyword.optionWord.spelling.toList ++ ' ' :: (s.text.toList ++ [';']) := by
    simp [Setting.line, Keyword.spelling]
  rw [whole]
  refine (word.congr (by simp)).mono ?_
  rintro _ ⟨doc, _, rfl, ws, _, rfl, phrase, doc', _, rfl, rfl⟩
  exact .intro phrase

theorem isApart_bracketText (options : List Setting) : IsApart (bracketText options).toList := by
  cases options with
  | nil => exact isApart_nil
  | cons s options =>
    have front : (bracketText (s :: options)).toList.head? = some ' ' := by simp [bracketText]
    intro c first
    rw [front] at first
    cases first
    rfl

/-- Options in brackets are read back. -/
theorem written_bracketText (h : ∀ s ∈ options, s.Writable) :
    Written (options.flatMap settingNames) (IsBrackets · options) (bracketText options).toList := by
  cases options with
  | nil => exact Written.nil.mono fun _ none => none ▸ .absent
  | cons s options =>
    have list := written_commaList (List.cons_ne_nil _ _) fun s member => (h s member).written
    have closed := list.append (Written.nil.mark .closeBracket) (isApart_cons.mpr rfl)
    have whole : (bracketText (s :: options)).toList =
        ' ' :: '[' :: ((commaList ((s :: options).map Setting.text)).toList ++ [']']) := by
      simp [bracketText]
    rw [whole]
    refine ((closed.mark .openBracket).space.congr (by simp)).mono ?_
    rintro _ ⟨doc, _, rfl, ws, _, rfl, phrase, doc', _, rfl, rfl⟩
    exact .present phrase

end Setting

end ProtoSchema
