import Mathlib.Data.List.Basic
import ProtoSchema.Proofs.Grammar.Declaration
import ProtoSchema.Proofs.RoundTrip.Value
import ProtoSchema.Proofs.Schema.Remaking

/-!
# Declarations are read back

Built declarations that can be written are written for the phrases that they are.
-/

namespace ProtoSchema

open Grammar

theorem flatMap_nil {α β : Type} (xs : List α) : xs.flatMap (fun _ => ([] : List β)) = [] := by
  simp

/-! ### Fields -/

/-- A whole number below the bound of integers is read back. -/
theorem isSpelling_nat {n : Nat} (small : n < Numeral.integerBound) :
    IsSpelling (toString n).toList (.int n) :=
  isSpelling_int (n := n) small

theorem Field.tag_lt_of_built {f : Field} (h : f.Built) : f.tag < Numeral.integerBound := by
  have bounds := (tag_of_built h).1
  unfold Numeral.integerBound
  omega

namespace Field

variable {f : Field}

/-- What a field has behind its type is read back. -/
theorem written_rest (built : f.Built) (name : IsDeclaredName f.name)
    (options : ∀ s ∈ f.options, s.Writable) :
    Written f.settingNames (IsFieldRest f.doc f.label f.typeName · f)
      (f.name.toList ++ ' ' :: '=' :: ' ' :: ((toString f.tag).toList ++
        ((bracketText f.options).toList ++ [';']))) := by
  have closed := (Setting.written_bracketText options).append (Written.nil.mark .semicolon)
    (isApart_cons.mpr rfl)
  have apart : IsApart ((bracketText f.options).toList ++ [';']) :=
    (Setting.isApart_bracketText _).append (isApart_cons.mpr rfl)
  have tag := closed.word (isSpelling_nat (tag_lt_of_built built)) apart
  have whole := (tag.space.mark .equals).space.word name.1.isSpelling (isApart_cons.mpr rfl)
  refine (whole.congr (by simp [settingNames])).mono ?_
  rintro _ ⟨d, _, rfl, d', _, rfl, d'', _, rfl, ws, _, rfl, brackets, c, _, rfl, rfl⟩
  exact .intro name.2 brackets (make_of_built built)

/-- An identifier is not the signature of a map. -/
theorem not_isMap_of_isIdent (h : IsIdent f.typeName) : f.isMap = false := by
  have noMark : '<' ∉ f.typeName.toList := by
    intro member
    rcases h with plain | signed
    · simp only [isNameText, Bool.and_eq_true, List.all_eq_true] at plain
      exact absurd (plain.2 _ member) (by decide)
    · rcases signed with same | same <;> rw [same] at member <;> exact absurd member (by decide)
  rw [Bool.eq_false_iff]
  intro isMap
  have inside : "map<".toList ⊆ f.typeName.toList :=
    (List.isPrefixOf_iff_prefix.mp isMap).subset
  exact noMark (inside (by decide))

theorem labelOfKeyword?_isSome (label : Label) :
    ∃ k : Keyword, k.spelling = label.spelling ∧ Reading.labelOfKeyword? k = some label := by
  cases label
  · exact ⟨.requiredWord, rfl, rfl⟩
  · exact ⟨.optionalWord, rfl, rfl⟩
  · exact ⟨.repeatedWord, rfl, rfl⟩

/-- A field with a label is read back. -/
theorem writtenLines (built : f.Built) (h : f.Writable) :
    WrittenLines f.settingNames (IsField · f) f.lines := by
  obtain ⟨k, spelling, label⟩ := labelOfKeyword?_isSome f.label
  have rest := written_rest built h.name h.options
  have typed := rest.space.word h.typeName.isSpelling (isApart_cons.mpr rfl)
  have labelled := typed.space.word k.isSpelling (isApart_cons.mpr rfl)
  have whole : f.line.toList = k.spelling.toList ++ ' ' :: (f.typeName.toList ++ ' ' ::
      (f.name.toList ++ ' ' :: '=' :: ' ' :: ((toString f.tag).toList ++
        ((bracketText f.options).toList ++ [';'])))) := by
    simp [line, not_isMap_of_isIdent h.typeName, spelling]
  rw [← whole] at labelled
  refine (WrittenLines.declaration h.doc labelled (by simp)).mono ?_
  rintro _ ⟨⟨doc, _, rfl, d, ws, rfl, phrase⟩, documented⟩
  have same : doc = f.doc := documented _ rfl
  subst same
  exact .intro label phrase

/-- A map field is read back. -/
theorem writtenLines_map (built : f.Built) (h : f.IsWritableMap) :
    WrittenLines f.settingNames (IsMapField · f) f.lines := by
  obtain ⟨key, value, isKey, isValue, typeName⟩ := h.typeName
  have rest := written_rest built h.name h.options
  rw [h.label, typeName] at rest
  have second := (rest.space.mark .greater).word isValue.isSpelling (isApart_cons.mpr rfl)
  have first := (second.space.mark .comma).word isKey.isSpelling (isApart_cons.mpr rfl)
  have map : IsIdent "map" := .inl (by decide)
  have signature := (first.mark .less).word map.isSpelling (isApart_cons.mpr rfl)
  have isMap : f.isMap = true := by
    unfold isMap
    rw [typeName, List.isPrefixOf_iff_prefix]
    exact ⟨key.toList ++ ", ".toList ++ value.toList ++ ">".toList, by simp⟩
  have whole : f.line.toList = "map".toList ++ '<' :: (key.toList ++ ',' :: ' ' :: (value.toList ++
      '>' :: ' ' :: (f.name.toList ++ ' ' :: '=' :: ' ' :: ((toString f.tag).toList ++
        ((bracketText f.options).toList ++ [';']))))) := by
    simp [line, isMap, typeName]
  rw [Mark.char, Mark.char, Mark.char, ← whole] at signature
  refine (WrittenLines.declaration h.doc signature (by simp)).mono ?_
  rintro _ ⟨⟨doc, _, rfl, d, _, rfl, d', _, rfl, d'', _, rfl, c, _, rfl, c', ws, rfl, phrase⟩,
    documented⟩
  have same : doc = f.doc := documented _ rfl
  subst same
  exact .intro phrase

end Field

/-! ### Extensions -/

theorem ExtensionRange.last_lt_of_built {r : ExtensionRange} (h : r.Built) :
    r.first < Numeral.integerBound ∧ r.last < Numeral.integerBound := by
  obtain ⟨positive, nonempty, small, _⟩ := make_eq_ok_iff.mp (make_of_built h)
  have bound : maxTag < Numeral.integerBound := by decide
  omega

/-- The bounds of a range are read back. -/
private theorem ExtensionRange.written_bounds {r : ExtensionRange} (built : r.Built) :
    Written [] (IsRange r.doc · r) r.boundsText.toList := by
  obtain ⟨firstSmall, lastSmall⟩ := last_lt_of_built built
  have made := make_of_built built
  have first := isSpelling_nat firstSmall
  unfold boundsText
  by_cases same : r.first = r.last
  · rw [if_pos same]
    have word := Written.nil.word first isApart_nil
    rw [List.append_nil] at word
    refine word.mono ?_
    rintro _ ⟨d, _, rfl, rfl⟩
    rw [← same] at made
    exact .intro .same made
  rw [if_neg same]
  have word := Keyword.toWord.isSpelling
  by_cases greatest : r.last = maxTag
  · rw [if_pos greatest]
    have max := Written.nil.word Keyword.maxWord.isSpelling isApart_nil
    have whole := (max.space.word word (isApart_cons.mpr rfl)).space.word first (isApart_cons.mpr rfl)
    have text : (toString r.first ++ " to max").toList = (toString r.first).toList ++
        ' ' :: (Keyword.toWord.spelling.toList ++ ' ' :: (Keyword.maxWord.spelling.toList ++ [])) := by
      simp [Keyword.spelling]
    rw [text]
    refine whole.mono ?_
    rintro _ ⟨d, _, rfl, d', _, rfl, d'', _, rfl, rfl⟩
    rw [greatest] at made
    exact .intro .max made
  · rw [if_neg greatest]
    have last := Written.nil.word (isSpelling_nat lastSmall) isApart_nil
    have whole := (last.space.word word (isApart_cons.mpr rfl)).space.word first (isApart_cons.mpr rfl)
    have text : (toString r.first ++ " to " ++ toString r.last).toList = (toString r.first).toList ++
        ' ' :: (Keyword.toWord.spelling.toList ++ ' ' :: ((toString r.last).toList ++ [])) := by
      simp [Keyword.spelling]
    rw [text]
    refine whole.mono ?_
    rintro _ ⟨d, _, rfl, d', _, rfl, d'', _, rfl, rfl⟩
    exact .intro .last made

/-- An extension range is read back as a statement of its own. -/
theorem ExtensionRange.writtenLines {r : ExtensionRange} (built : r.Built) (doc : IsTrimmed r.doc) :
    WrittenLines [] (IsExtensions · [r]) r.lines := by
  have closed := (written_bounds built).append (Written.nil.mark .semicolon) (isApart_cons.mpr rfl)
  have line := closed.space.word Keyword.extensionsWord.isSpelling (isApart_cons.mpr rfl)
  have whole : ("extensions " ++ r.boundsText ++ ";").toList =
      Keyword.extensionsWord.spelling.toList ++ ' ' :: (r.boundsText.toList ++ [';']) := by
    simp [Keyword.spelling]
  rw [Mark.char, ← whole] at line
  refine ((WrittenLines.declaration doc line (by simp)).congr (by simp)).mono ?_
  rintro _ ⟨⟨doc, _, rfl, ws, _, rfl, range, d, _, rfl, rfl⟩, documented⟩
  have same : doc = r.doc := documented _ rfl
  subst same
  exact .intro (.last range)

/-- An extend block is read back. -/
theorem ExtendBlock.writtenLines {e : ExtendBlock} (built : e.Built) (h : e.Writable) :
    WrittenLines e.settingNames (IsExtend · e) e.lines := by
  obtain ⟨fields, made⟩ := make_of_built built
  have inside := WrittenLines.flatMap fun f member =>
    Field.writtenLines (fields f member) (h.fields f member)
  have opening := (Written.nil.mark .openBrace).space.word h.target.isSpelling (isApart_cons.mpr rfl)
  have head := opening.space.word Keyword.extendWord.isSpelling (isApart_cons.mpr rfl)
  have whole : ("extend " ++ e.target).toList ++ [' ', '\x7b'] =
      Keyword.extendWord.spelling.toList ++ ' ' :: (e.target.toList ++ [' ', '\x7b']) := by
    simp [Keyword.spelling]
  rw [Mark.char, ← whole] at head
  refine ((WrittenLines.block h.doc head (by simp) inside).congr (by simp [settingNames])).mono ?_
  rintro _ ⟨_, vs, d, rfl, ⟨⟨doc, _, rfl, d', _, rfl, d'', _, rfl, rfl⟩, documented⟩, row⟩
  have same : doc = e.doc := documented _ rfl
  subst same
  have statements := row.map fun _ _ phrase => IsExtendStatement.field phrase
  refine .intro statements ?_
  simpa [List.filterMap_map, Function.comp_def, Reading.ExtendStatement.field?] using made

/-! ### Enums -/

/-- An enum value is read back. -/
theorem EnumValue.writtenLines {v : EnumValue} (built : v.Built) (h : v.Writable) :
    WrittenLines v.settingNames (IsEnumValue · v) v.lines := by
  have made := make_of_built built
  have small : v.tag.natAbs < Numeral.integerBound := by
    have bounds := (make_eq_ok_iff.mp made).2.1
    simp only [isEnumNumber, Bool.and_eq_true, decide_eq_true_eq] at bounds
    unfold Numeral.integerBound
    omega
  have closed := (Setting.written_bracketText h.options).append (Written.nil.mark .semicolon)
    (isApart_cons.mpr rfl)
  have apart : IsApart ((bracketText v.options).toList ++ [';']) :=
    (Setting.isApart_bracketText _).append (isApart_cons.mpr rfl)
  have tag := closed.word (isSpelling_int small) apart
  have line := (tag.space.mark .equals).space.word h.name.1.isSpelling (isApart_cons.mpr rfl)
  have whole : (v.text ++ bracketText v.options ++ ";").toList = v.name.toList ++ ' ' :: '=' :: ' ' ::
      ((toString v.tag).toList ++ ((bracketText v.options).toList ++ [';'])) := by
    simp [text]
  rw [Mark.char, Mark.char, ← whole] at line
  refine ((WrittenLines.declaration h.doc line (by simp)).congr (by simp [settingNames])).mono ?_
  rintro _ ⟨⟨doc, _, rfl, d, _, rfl, d', _, rfl, ws, _, rfl, brackets, d'', _, rfl, rfl⟩, documented⟩
  have same : doc = v.doc := documented _ rfl
  subst same
  exact .intro h.name.2 h.noOption brackets made

/-- Option statements are read back. -/
theorem Setting.writtenLines {options : List Setting} (h : ∀ s ∈ options, s.Writable) :
    WrittenLines (options.flatMap settingNames) (IsSequence IsOptionStatement · options)
      (options.map line) := by
  have each : ∀ s ∈ options, WrittenLines s.settingNames (IsOptionStatement · s) [s.line] :=
    fun s member => WrittenLines.single (h s member).written_line nofun
  have rows := WrittenLines.flatMap each
  rwa [← List.map_eq_flatMap] at rows

/-- An enum is read back. -/
theorem EnumType.writtenLines {scope : Reading.Scope} {e : EnumType} (built : e.Built)
    (h : e.Writable scope) : WrittenLines e.settingNames (IsEnum scope · e) e.lines := by
  obtain ⟨values, made⟩ := make_of_built built
  have rows := (Setting.writtenLines h.options).append (WrittenLines.flatMap fun v member =>
    EnumValue.writtenLines (values v member) (h.values v member))
  have opening := (Written.nil.mark .openBrace).space.word h.name.1.isSpelling (isApart_cons.mpr rfl)
  have head := opening.space.word Keyword.enumWord.isSpelling (isApart_cons.mpr rfl)
  have whole : ("enum " ++ e.name).toList ++ [' ', '\x7b'] =
      Keyword.enumWord.spelling.toList ++ ' ' :: (e.name.toList ++ [' ', '\x7b']) := by
    simp [Keyword.spelling]
  rw [Mark.char, ← whole] at head
  refine ((WrittenLines.block h.doc head (by simp) rows).congr (by simp [settingNames])).mono ?_
  rintro _ ⟨_, _, d, rfl, ⟨⟨doc, _, rfl, d', _, rfl, d'', _, rfl, rfl⟩, documented⟩,
    os, vs, rfl, options, values⟩
  have same : doc = e.doc := documented _ rfl
  subst same
  have statements := (options.map fun _ _ phrase => IsEnumStatement.option phrase).append
    (values.map fun _ _ phrase => IsEnumStatement.value phrase)
  refine .intro h.name.2 statements ?_
  rw [h.fullName] at made
  simpa [List.filterMap_map, Function.comp_def, Reading.EnumStatement.value?,
    Reading.EnumStatement.option?] using made

/-! ### Services -/

/-- The head of a method is read back in front of what is set apart from it. -/
private theorem Method.written_head {m : Method} {P : List Word → Prop} {names : List String}
    {text : List Char} (h : m.Writable) (rest : Written names P text) :
    Written names (fun ws => ∃ hs rest, ws = hs ++ rest ∧
        (∀ doc, IsDocumented doc ws → IsRpcHead hs m.name doc m.request m.response) ∧ P rest)
      (m.head.toList ++ text) := by
  have response := (rest.mark .closeParen).word h.response.isSpelling (isApart_cons.mpr rfl)
  have returns := (response.mark .openParen).space.word Keyword.returnsWord.isSpelling
    (isApart_cons.mpr rfl)
  have request := (returns.space.mark .closeParen).word h.request.isSpelling (isApart_cons.mpr rfl)
  have name := (request.mark .openParen).space.word h.name.1.isSpelling (isApart_cons.mpr rfl)
  have whole := name.space.word Keyword.rpcWord.isSpelling (isApart_cons.mpr rfl)
  have line : m.head.toList ++ text = Keyword.rpcWord.spelling.toList ++ ' ' :: (m.name.toList ++
      ' ' :: '(' :: (m.request.toList ++ ')' :: ' ' :: (Keyword.returnsWord.spelling.toList ++
        ' ' :: '(' :: (m.response.toList ++ ')' :: text)))) := by
    simp [head, Keyword.spelling]
  rw [line]
  refine whole.mono ?_
  rintro _ ⟨d, _, rfl, d', _, rfl, d'', _, rfl, c, _, rfl, c', _, rfl, c'', _, rfl, e, _, rfl,
    e', _, rfl, e'', ws, rfl, phrase⟩
  refine ⟨[_, _, _, _, _, _, _, _, _], ws, rfl, fun doc documented => ?_, phrase⟩
  have same : d = doc := documented _ rfl
  subst same
  exact .intro h.name.2

/-- A method is read back. -/
theorem Method.writtenLines {m : Method} (built : m.Built) (h : m.Writable) :
    WrittenLines m.settingNames (IsRpc · m) m.lines := by
  have made := make_of_built built
  have rows := Setting.writtenLines h.options
  unfold lines settingNames
  cases options : m.options with
  | nil =>
    have line := written_head h (Written.nil.mark .semicolon)
    have whole : (m.head ++ ";").toList = m.head.toList ++ [';'] := by simp
    rw [Mark.char, ← whole] at line
    refine (WrittenLines.declaration h.doc line (by simp)).mono ?_
    rintro _ ⟨⟨hs, _, rfl, head, d, _, rfl, rfl⟩, documented⟩
    rw [options] at made
    exact .intro (head _ documented) .semicolon made
  | cons s ss =>
    have line := written_head h (Written.nil.mark .openBrace).space
    rw [options] at rows made
    refine (WrittenLines.block h.doc line (by simp) rows).mono ?_
    rintro _ ⟨_, os, d, rfl, ⟨⟨hs, _, rfl, head, d', _, rfl, rfl⟩, documented⟩, row⟩
    have statements := row.map fun _ _ phrase => IsRpcStatement.option phrase
    have found : ((s :: ss).map .option).filterMap Reading.RpcStatement.option? = s :: ss := by
      simp [List.filterMap_map, Function.comp_def, Reading.RpcStatement.option?]
    have ending : IsRpcEnd (⟨.mark .openBrace, d'⟩ :: (os ++ [⟨.mark .closeBrace, d⟩])) _ :=
      .braces statements
    rw [found] at ending
    rw [List.append_assoc]
    exact .intro (head _ documented) ending made

/-- A service is read back. -/
theorem Service.writtenLines {scope : Reading.Scope} {s : Service} (built : s.Built)
    (h : s.Writable scope) : WrittenLines s.settingNames (IsService scope · s) s.lines := by
  obtain ⟨methods, made⟩ := make_of_built built
  have rows := (Setting.writtenLines h.options).append (WrittenLines.flatMap fun m member =>
    Method.writtenLines (methods m member) (h.methods m member))
  have opening := (Written.nil.mark .openBrace).space.word h.name.1.isSpelling (isApart_cons.mpr rfl)
  have head := opening.space.word Keyword.serviceWord.isSpelling (isApart_cons.mpr rfl)
  have whole : ("service " ++ s.name).toList ++ [' ', '\x7b'] =
      Keyword.serviceWord.spelling.toList ++ ' ' :: (s.name.toList ++ [' ', '\x7b']) := by
    simp [Keyword.spelling]
  rw [Mark.char, ← whole] at head
  refine ((WrittenLines.block h.doc head (by simp) rows).congr (by simp [settingNames])).mono ?_
  rintro _ ⟨_, _, d, rfl, ⟨⟨doc, _, rfl, d', _, rfl, d'', _, rfl, rfl⟩, documented⟩,
    os, vs, rfl, options, methods⟩
  have same : doc = s.doc := documented _ rfl
  subst same
  have statements := (options.map fun _ _ phrase => IsServiceStatement.option phrase).append
    (methods.map fun _ _ phrase => IsServiceStatement.method phrase)
  refine .intro h.name.2 statements ?_
  rw [h.fullName] at made
  simpa [List.filterMap_map, Function.comp_def, Reading.ServiceStatement.method?,
    Reading.ServiceStatement.option?] using made

/-! ### Messages -/

/-- A type in a scope, as a phrase. -/
def IsTypePhrase (scope : Reading.Scope) (ws : List Word) : TypeDecl → Prop
  | .message m => IsMessage scope ws m
  | .enumType e => IsEnum scope ws e

theorem isMessageStatement_nested {scope : Reading.Scope} {ws : List Word} {t : TypeDecl}
    (h : IsTypePhrase scope ws t) : IsMessageStatement scope ws (.nested t) := by
  cases t with
  | message m => exact .inr ⟨m, rfl, h⟩
  | enumType e => exact .inl (.enumType h)

/-- The statements of a message in the order in which they are written. -/
private def writtenStatements (body : MessageBody) : List Reading.MessageStatement :=
  body.options.map .option ++ (body.fields.map .field ++ (body.extensions.map (.extensions [·]) ++
    (body.nested.map .nested ++ body.extendBlocks.map .extend)))

private theorem bodyOfStatements_writtenStatements (body : MessageBody) :
    Reading.bodyOfStatements (writtenStatements body) = body := by
  cases body
  simp [Reading.bodyOfStatements, writtenStatements, List.filterMap_map, List.flatMap_map,
    Function.comp_def, flatMap_nil, Reading.MessageStatement.field?,
    Reading.MessageStatement.nested?, Reading.MessageStatement.extend?,
    Reading.MessageStatement.ranges, Reading.MessageStatement.option?]

/-- What a message holds is read back as the statements that it is written in. -/
private theorem Message.written_body {scope : Reading.Scope} {m : Message} (parts : m.IsMadeOfParts)
    (fields : ∀ f ∈ m.fields, f.Writable ∨ f.IsWritableMap)
    (extendBlocks : ∀ e ∈ m.extendBlocks, e.Writable) (extensions : ∀ r ∈ m.extensions, IsTrimmed r.doc)
    (options : ∀ s ∈ m.options, s.Writable)
    (nested : ∀ t ∈ m.nested, WrittenLines t.settingNames (IsTypePhrase scope · t) t.lines) :
    WrittenLines m.settingNames (IsMessageBody scope · (writtenStatements m.body))
      (m.options.map Setting.line ++ (m.fields.flatMap Field.lines ++
        (m.extensions.flatMap ExtensionRange.lines ++ (m.nested.flatMap TypeDecl.lines ++
          m.extendBlocks.flatMap ExtendBlock.lines)))) := by
  have fieldRows := WrittenLines.flatMap (P := fun ws f => IsField ws f ∨ IsMapField ws f)
    fun f member => by
      rcases fields f member with plain | map
      · exact (Field.writtenLines (parts.fields f member) plain).mono fun _ => .inl
      · exact (Field.writtenLines_map (parts.fields f member) map).mono fun _ => .inr
  have rangeRows := WrittenLines.flatMap fun r member =>
    ExtensionRange.writtenLines (parts.extensions r member) (extensions r member)
  have extendRows := WrittenLines.flatMap fun e member =>
    ExtendBlock.writtenLines (parts.extendBlocks e member) (extendBlocks e member)
  have rows := (Setting.writtenLines options).append (fieldRows.append (rangeRows.append
    ((WrittenLines.flatMap nested).append extendRows)))
  refine (rows.congr (by simp [settingNames_eq, flatMap_nil])).mono ?_
  rintro _ ⟨os, _, rfl, optionRow, fs, _, rfl, fieldRow, rs, _, rfl, rangeRow, ts, es, rfl, typeRow,
    extendRow⟩
  rw [isMessageBody_iff]
  have fieldRow := fieldRow.map (R := IsMessageStatement scope) fun _ f phrase =>
    phrase.elim (fun plain => .inl (.field plain)) fun map => .inl (.mapField map)
  exact (optionRow.map fun _ _ phrase => .inl (.option phrase)).append (fieldRow.append
    ((rangeRow.map fun _ _ phrase => .inl (.extensions phrase)).append
      ((typeRow.map fun _ _ phrase => isMessageStatement_nested phrase).append
        (extendRow.map fun _ _ phrase => .inl (.extend phrase)))))

mutual

/-- A message is read back. -/
theorem Message.writtenLines (scope : Reading.Scope) (m : Message) (built : m.Built)
    (h : m.Writable scope) : WrittenLines m.settingNames (IsMessage scope · m) m.lines := by
  match m with
  | ⟨name, fullName, doc, fields, nested, extendBlocks, extensions, options⟩ =>
    have parts := Message.isMadeOfParts_of_built built
    cases h with
    | intro isName qualified trimmed fields' nested' extendBlocks' extensions' options' =>
      have types := TypeDecl.writtenLines_of_mem (scope ++ [name]) nested parts.nested nested'
      have body := Message.written_body parts fields' extendBlocks' extensions' options' types
      have opening := (Written.nil.mark .openBrace).space.word isName.1.isSpelling
        (isApart_cons.mpr rfl)
      have head := opening.space.word Keyword.messageWord.isSpelling (isApart_cons.mpr rfl)
      have whole : ("message " ++ name).toList ++ [' ', '\x7b'] =
          Keyword.messageWord.spelling.toList ++ ' ' :: (name.toList ++ [' ', '\x7b']) := by
        simp [Keyword.spelling]
      rw [Mark.char, ← whole] at head
      have block := WrittenLines.block trimmed head (by simp) body
      rw [Message.lines, TypeDecl.linesAll_eq_flatMap]
      simp only [List.append_assoc]
      refine (block.congr (by simp)).mono ?_
      rintro _ ⟨_, vs, d, rfl, ⟨⟨doc', _, rfl, d', _, rfl, d'', _, rfl, rfl⟩, documented⟩, phrase⟩
      have same : doc' = doc := documented _ rfl
      subst same
      have made := parts.made
      rw [qualified, ← bodyOfStatements_writtenStatements (Message.body _)] at made
      exact .intro isName.2 phrase made
termination_by structural m

theorem TypeDecl.writtenLines (scope : Reading.Scope) (t : TypeDecl) (built : t.Built)
    (h : t.Writable scope) : WrittenLines t.settingNames (IsTypePhrase scope · t) t.lines := by
  match t with
  | .message m =>
    cases built with
    | message built =>
      cases h with
      | message h => exact Message.writtenLines scope m built h
  | .enumType e =>
    cases built with
    | enumType built =>
      cases h with
      | enumType h => exact e.writtenLines built h
termination_by structural t

theorem TypeDecl.writtenLines_of_mem (scope : Reading.Scope) (ts : List TypeDecl)
    (built : ∀ t ∈ ts, t.Built) (h : ∀ t ∈ ts, t.Writable scope) :
    ∀ t ∈ ts, WrittenLines t.settingNames (IsTypePhrase scope · t) t.lines := by
  match ts with
  | [] => exact nofun
  | t :: ts =>
    obtain ⟨first, built⟩ := List.forall_mem_cons.mp built
    obtain ⟨writable, h⟩ := List.forall_mem_cons.mp h
    exact List.forall_mem_cons.mpr ⟨TypeDecl.writtenLines scope t first writable,
      TypeDecl.writtenLines_of_mem scope ts built h⟩
termination_by structural ts

end


end ProtoSchema
