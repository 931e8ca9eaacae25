import ProtoSchema.Proofs.Lexing.Shape
import ProtoSchema.Proofs.Reading.Built
import ProtoSchema.Proofs.RoundTrip.File

/-!
# What is parsed is read back

Whatever is made of the words of some text can be written, so that every parsed file is read back
from its own text, unless a path was put behind a signed name.
-/

namespace ProtoSchema

open Grammar Reading

/-- Words that are read from some text. -/
def AreShaped (ws : List Word) : Prop := ∀ w ∈ ws, w.IsShaped

@[simp] theorem areShaped_nil : AreShaped [] := nofun

@[simp] theorem areShaped_cons {w : Word} {ws : List Word} :
    AreShaped (w :: ws) ↔ w.IsShaped ∧ AreShaped ws :=
  List.forall_mem_cons

@[simp] theorem areShaped_append {ws ws' : List Word} :
    AreShaped (ws ++ ws') ↔ AreShaped ws ∧ AreShaped ws' :=
  List.forall_mem_append

theorem AreShaped.mono {ws part : List Word} (h : AreShaped ws) (inside : part ⊆ ws) :
    AreShaped part :=
  fun w member => h w (inside member)

theorem Word.IsShaped.isIdent {name doc : String} (h : Word.IsShaped ⟨.ident name, doc⟩) :
    IsIdent name :=
  h.token

namespace Grammar

variable {ws : List Word}

/-! ### Names -/

/-- An identifier that begins with a point has no sign. -/
private theorem isNameText_of_isSuffix {name : String} (h : IsIdent name)
    (suffix : isSuffix name = true) : isNameText name.toList = true := by
  rcases h with plain | rfl | rfl
  · exact plain
  · exact absurd suffix (by decide)
  · exact absurd suffix (by decide)

theorem IsPath.isPathText {path : String} (h : IsPath ws path) (shaped : AreShaped ws) :
    IsPathText path := by
  induction h with
  | nil => exact .inl rfl
  | @cons name path doc ws suffix _ ih =>
    obtain ⟨first, rest⟩ := areShaped_cons.mp shaped
    have plain := isNameText_of_isSuffix first.isIdent suffix
    simp only [isNameText, Bool.and_eq_true, List.all_eq_true] at plain
    have inside : ∀ c ∈ path.toList, isIdentChar c = true := by
      rcases ih rest with rfl | ⟨name, _⟩
      · exact List.forall_mem_nil _
      · simp only [isNameText, Bool.and_eq_true, List.all_eq_true] at name
        exact name.2
    refine .inr ⟨?_, ?_⟩
    · simp only [isNameText, String.toList_append, Bool.and_eq_true, List.all_eq_true]
      exact ⟨startsName_append plain.1 _, List.forall_mem_append.mpr ⟨plain.2, inside⟩⟩
    · simp only [isSuffix, decide_eq_true_eq] at suffix ⊢
      rw [String.toList_append, List.head?_append, suffix, Option.some_or]

theorem IsOptionName.isOptionText {name : String} (h : IsOptionName ws name)
    (shaped : AreShaped ws) : IsOptionText name := by
  cases h with
  | plain path =>
    obtain ⟨base, rest⟩ := areShaped_cons.mp shaped
    exact .plain base.isIdent (path.isPathText rest)
  | extension path =>
    simp only [areShaped_cons] at shaped
    obtain ⟨_, inner, _, rest⟩ := shaped
    exact .extension inner.isIdent (path.isPathText rest)

theorem IsKey.isKeyText {name : String} (h : IsKey ws name) (shaped : AreShaped ws) :
    IsKeyText name := by
  cases h with
  | option phrase => exact .option (phrase.isOptionText shaped)
  | extension =>
    simp only [areShaped_cons] at shaped
    exact .extension shaped.2.1.isIdent

/-! ### Values -/

/-- What a value holds is read from some text; it can be written if it holds nothing. -/
private def HoldsShaped : Value → Prop
  | .list items => ∀ item ∈ items, ∃ part, AreShaped part ∧ IsValue part item
  | .map entries => ∀ entry ∈ entries, ∃ part, AreShaped part ∧ IsEntry part entry
  | v => v.Writable

private theorem IsValue.holdsShaped {v : Value} (h : IsValue ws v) (shaped : AreShaped ws) :
    HoldsShaped v := by
  have entries {entries : List Setting} {ws : List Word} (row : IsSequence IsEntry ws entries)
      (shaped : AreShaped ws) : HoldsShaped (.map entries) := by
    intro entry member
    obtain ⟨part, inside, phrase⟩ := row.exists_of_mem member
    exact ⟨part, shaped.mono inside, phrase⟩
  cases h with
  | int => exact (areShaped_cons.mp shaped).1.token
  | float => exact (areShaped_cons.mp shaped).1.token
  | ident => exact (areShaped_cons.mp shaped).1.token
  | literal =>
    unfold valueOfBytes
    split
    next => trivial
    next none => exact none
  | emptyList => exact List.forall_mem_nil _
  | list row =>
    simp only [List.cons_append, areShaped_cons, areShaped_append] at shaped
    intro item member
    obtain ⟨part, inside, phrase⟩ := row.exists_of_mem member
    exact ⟨part, shaped.2.1.mono inside, phrase⟩
  | braces row =>
    simp only [List.cons_append, areShaped_cons, areShaped_append] at shaped
    exact entries row shaped.2.1
  | angles row =>
    simp only [List.cons_append, areShaped_cons, areShaped_append] at shaped
    exact entries row shaped.2.1

private theorem IsEntry.holdsShaped {s : Setting} (h : IsEntry ws s) (shaped : AreShaped ws) :
    IsKeyText s.name ∧ HoldsShaped s.value := by
  cases h with
  | colon key value =>
    simp only [areShaped_cons, areShaped_append] at shaped
    exact ⟨key.isKeyText shaped.1, value.holdsShaped shaped.2.2.1⟩
  | map key value =>
    simp only [areShaped_append] at shaped
    exact ⟨key.isKeyText shaped.1, value.holdsShaped shaped.2.1⟩

mutual

private theorem writable_of_holdsShaped (v : Value) (h : HoldsShaped v) : v.Writable := by
  -- The recursion follows the value. The phrases of its parts stand in rows, and a recursion on
  -- phrases would not see that they are smaller.
  match v with
  | .list items => exact allWritable_of_holdShaped items h
  | .map entries => exact allWritableEntries_of_holdShaped entries h
  | .int _ => exact h
  | .float _ => exact h
  | .str _ => exact h
  | .bytes _ => exact h
  | .ident _ => exact h
termination_by structural v

private theorem allWritable_of_holdShaped (items : List Value)
    (h : ∀ item ∈ items, ∃ part, AreShaped part ∧ IsValue part item) :
    Value.AllWritable items := by
  match items with
  | [] => trivial
  | item :: items =>
    obtain ⟨⟨part, shaped, phrase⟩, rest⟩ := List.forall_mem_cons.mp h
    exact ⟨writable_of_holdsShaped item (phrase.holdsShaped shaped),
      allWritable_of_holdShaped items rest⟩
termination_by structural items

private theorem isWritableEntry_of_holdsShaped (s : Setting)
    (h : IsKeyText s.name ∧ HoldsShaped s.value) : s.IsWritableEntry := by
  match s with
  | ⟨name, value⟩ => exact ⟨h.1, writable_of_holdsShaped value h.2⟩
termination_by structural s

private theorem allWritableEntries_of_holdShaped (entries : List Setting)
    (h : ∀ entry ∈ entries, ∃ part, AreShaped part ∧ IsEntry part entry) :
    Setting.AllWritable entries := by
  match entries with
  | [] => trivial
  | entry :: entries =>
    obtain ⟨⟨part, shaped, phrase⟩, rest⟩ := List.forall_mem_cons.mp h
    exact ⟨isWritableEntry_of_holdsShaped entry (phrase.holdsShaped shaped),
      allWritableEntries_of_holdShaped entries rest⟩
termination_by structural entries

end

theorem IsValue.writable {v : Value} (h : IsValue ws v) (shaped : AreShaped ws) : v.Writable :=
  writable_of_holdsShaped v (h.holdsShaped shaped)

theorem IsSetting.writable {s : Setting} (h : IsSetting ws s) (shaped : AreShaped ws) :
    s.Writable := by
  cases h with
  | intro name value =>
    simp only [areShaped_cons, areShaped_append] at shaped
    exact ⟨name.isOptionText shaped.1, value.writable shaped.2.2⟩

theorem IsOptionStatement.writable {s : Setting} (h : IsOptionStatement ws s)
    (shaped : AreShaped ws) : s.Writable := by
  cases h with
  | intro setting =>
    simp only [List.cons_append, areShaped_cons, areShaped_append] at shaped
    exact setting.writable shaped.2.1

theorem IsBrackets.writable {options : List Setting} (h : IsBrackets ws options)
    (shaped : AreShaped ws) : ∀ s ∈ options, s.Writable := by
  cases h with
  | absent => exact List.forall_mem_nil _
  | present list =>
    simp only [List.cons_append, areShaped_cons, areShaped_append] at shaped
    intro s member
    obtain ⟨part, inside, phrase⟩ := list.exists_of_mem member
    exact phrase.writable (shaped.2.1.mono inside)

/-! ### Fields -/

theorem IsFieldRest.writableParts {doc typeName : String} {label : Label} {f : Field}
    (h : IsFieldRest doc label typeName ws f) (shaped : AreShaped ws) :
    (f.label = label ∧ f.typeName = typeName ∧ f.doc = doc) ∧
      IsDeclaredName f.name ∧ ∀ s ∈ f.options, s.Writable := by
  cases h with
  | intro plain brackets made =>
    obtain ⟨_, _, _, _, rfl⟩ := Field.make_eq_ok_iff.mp made
    simp only [areShaped_cons, areShaped_append] at shaped
    obtain ⟨name, _, _, options, _⟩ := shaped
    exact ⟨⟨rfl, rfl, rfl⟩, ⟨name.isIdent, plain⟩, brackets.writable options⟩

theorem IsField.writable {f : Field} (h : IsField ws f) (shaped : AreShaped ws) : f.Writable := by
  cases h with
  | intro _ rest =>
    simp only [areShaped_cons] at shaped
    obtain ⟨start, typeName, behind⟩ := shaped
    obtain ⟨⟨_, sameType, sameDoc⟩, name, options⟩ := rest.writableParts behind
    exact ⟨sameType ▸ typeName.isIdent, name, sameDoc ▸ start.doc, options⟩

theorem IsMapField.isWritableMap {f : Field} (h : IsMapField ws f) (shaped : AreShaped ws) :
    f.IsWritableMap := by
  cases h with
  | intro rest =>
    simp only [areShaped_cons] at shaped
    obtain ⟨start, _, key, _, value, _, behind⟩ := shaped
    obtain ⟨⟨label, typeName, sameDoc⟩, name, options⟩ := rest.writableParts behind
    exact ⟨label, ⟨_, _, key.isIdent, value.isIdent, typeName⟩, name, sameDoc ▸ start.doc, options⟩

theorem IsExtensions.isTrimmed {ranges : List ExtensionRange} (h : IsExtensions ws ranges)
    (shaped : AreShaped ws) : ∀ r ∈ ranges, IsTrimmed r.doc := by
  cases h with
  | intro list =>
    obtain ⟨start, _⟩ := areShaped_cons.mp shaped
    intro r member
    obtain ⟨_, _, phrase⟩ := list.exists_of_mem member
    cases phrase with
    | intro _ made =>
      -- All ranges of a statement share the documentation of its keyword.
      obtain ⟨_, _, _, rfl⟩ := ExtensionRange.make_eq_ok_iff.mp made
      exact start.doc

theorem IsExtend.writable {e : ExtendBlock} (h : IsExtend ws e) (shaped : AreShaped ws) :
    e.Writable := by
  cases h with
  | intro row made =>
    obtain ⟨_, _, rfl⟩ := ExtendBlock.make_eq_ok_iff.mp made
    simp only [areShaped_cons, areShaped_append] at shaped
    obtain ⟨start, target, _, inner, _⟩ := shaped
    refine ⟨target.isIdent, start.doc, ?_⟩
    simp only [List.forall_mem_filterMap]
    intro s member f isField
    obtain ⟨part, inside, phrase⟩ := row.exists_of_mem member
    cases phrase with
    | empty => cases isField
    | field phrase =>
      cases isField
      exact phrase.writable (inner.mono inside)

/-! ### Enums and services -/

variable {scope : Scope}

theorem IsEnumValue.writable {v : EnumValue} (h : IsEnumValue ws v) (shaped : AreShaped ws) :
    v.Writable := by
  cases h with
  | intro plain noOption brackets made =>
    obtain ⟨_, _, rfl⟩ := EnumValue.make_eq_ok_iff.mp made
    simp only [areShaped_cons, areShaped_append] at shaped
    obtain ⟨name, _, _, options, _⟩ := shaped
    exact ⟨⟨name.isIdent, plain⟩, noOption, name.doc, brackets.writable options⟩

theorem IsEnum.writable {e : EnumType} (h : IsEnum scope ws e) (shaped : AreShaped ws) :
    e.Writable scope := by
  cases h with
  | intro plain row made =>
    obtain ⟨_, _, rfl⟩ := EnumType.make_eq_ok_iff.mp made
    simp only [areShaped_cons, areShaped_append] at shaped
    obtain ⟨start, name, _, inner, _⟩ := shaped
    refine ⟨⟨name.isIdent, plain⟩, rfl, start.doc, ?_, ?_⟩
    all_goals
      simp only [List.forall_mem_filterMap]
      intro s member x picked
      obtain ⟨part, inside, phrase⟩ := row.exists_of_mem member
      cases phrase <;> cases picked
    · rename_i phrase
      exact phrase.writable (inner.mono inside)
    · rename_i phrase
      exact phrase.writable (inner.mono inside)

theorem IsRpcEnd.writable {options : List Setting} (h : IsRpcEnd ws options)
    (shaped : AreShaped ws) : ∀ s ∈ options, s.Writable := by
  have braces {statements : List RpcStatement} {ws : List Word}
      (row : IsSequence IsRpcStatement ws statements) (shaped : AreShaped ws) :
      ∀ s ∈ statements.filterMap RpcStatement.option?, s.Writable := by
    simp only [List.forall_mem_filterMap]
    intro s member o isOption
    obtain ⟨part, inside, phrase⟩ := row.exists_of_mem member
    cases phrase with
    | empty => cases isOption
    | option phrase =>
      cases isOption
      exact phrase.writable (shaped.mono inside)
  cases h with
  | semicolon => exact List.forall_mem_nil _
  | braces row =>
    simp only [areShaped_cons, areShaped_append] at shaped
    exact braces row shaped.2.1
  | both row =>
    simp only [areShaped_cons, areShaped_append] at shaped
    exact braces row shaped.2.1

theorem IsRpc.writable {m : Method} (h : IsRpc ws m) (shaped : AreShaped ws) : m.Writable := by
  cases h with
  | intro head last made =>
    obtain ⟨_, _, _, rfl⟩ := Method.make_eq_ok_iff.mp made
    obtain ⟨front, behind⟩ := areShaped_append.mp shaped
    have options := last.writable behind
    cases head with
    | intro plain =>
      simp only [areShaped_cons] at front
      obtain ⟨start, name, _, request, _, _, _, response, _⟩ := front
      exact ⟨⟨name.isIdent, plain⟩, request.isIdent, response.isIdent, start.doc, options⟩

theorem IsService.writable {d : Service} (h : IsService scope ws d) (shaped : AreShaped ws) :
    d.Writable scope := by
  cases h with
  | intro plain row made =>
    obtain ⟨_, _, rfl⟩ := Service.make_eq_ok_iff.mp made
    simp only [areShaped_cons, areShaped_append] at shaped
    obtain ⟨start, name, _, inner, _⟩ := shaped
    refine ⟨⟨name.isIdent, plain⟩, rfl, start.doc, ?_, ?_⟩
    all_goals
      simp only [List.forall_mem_filterMap]
      intro s member x picked
      obtain ⟨part, inside, phrase⟩ := row.exists_of_mem member
      cases phrase <;> cases picked
    · rename_i phrase
      exact phrase.writable (inner.mono inside)
    · rename_i phrase
      exact phrase.writable (inner.mono inside)

/-! ### Messages -/

/-- What a statement of a message in this scope declares can be written. -/
structure PartsWritable (scope : Scope) (s : MessageStatement) : Prop where
  field : ∀ f, s.field? = some f → f.Writable ∨ f.IsWritableMap
  nested : ∀ t, s.nested? = some t → TypeDecl.Writable scope t
  extend : ∀ e, s.extend? = some e → e.Writable
  ranges : ∀ r ∈ s.ranges, IsTrimmed r.doc
  option : ∀ o, s.option? = some o → o.Writable

theorem IsPlainStatement.writable {s : MessageStatement} (h : IsPlainStatement scope ws s)
    (shaped : AreShaped ws) : PartsWritable scope s := by
  cases h with
  | empty => exact ⟨nofun, nofun, nofun, nofun, nofun⟩
  | field phrase =>
    exact ⟨fun _ same => by cases same; exact .inl (phrase.writable shaped), nofun, nofun, nofun, nofun⟩
  | mapField phrase =>
    exact ⟨fun _ same => by cases same; exact .inr (phrase.isWritableMap shaped), nofun, nofun,
      nofun, nofun⟩
  | enumType phrase =>
    exact ⟨nofun, fun _ same => by cases same; exact .enumType (phrase.writable shaped), nofun,
      nofun, nofun⟩
  | extend phrase =>
    exact ⟨nofun, nofun, fun _ same => by cases same; exact phrase.writable shaped, nofun, nofun⟩
  | extensions phrase => exact ⟨nofun, nofun, nofun, phrase.isTrimmed shaped, nofun⟩
  | option phrase =>
    exact ⟨nofun, nofun, nofun, nofun, fun _ same => by cases same; exact phrase.writable shaped⟩

mutual

theorem IsMessage.writable {scope : Scope} {ws : List Word} {m : Message}
    (h : IsMessage scope ws m) (shaped : AreShaped ws) : m.Writable scope := by
  match h with
  | .intro plain body made =>
    obtain ⟨_, _, _, _, rfl⟩ := Message.make_eq_ok_iff.mp made
    simp only [areShaped_cons, areShaped_append] at shaped
    obtain ⟨start, name, _, inner, _⟩ := shaped
    have parts := IsMessageBody.writable body inner
    refine .intro ⟨name.isIdent, plain⟩ rfl start.doc ?_ ?_ ?_ ?_ ?_
    all_goals simp only [bodyOfStatements, List.forall_mem_filterMap, List.mem_flatMap]
    · exact fun s member => (parts s member).field
    · exact fun s member => (parts s member).nested
    · exact fun s member => (parts s member).extend
    · rintro r ⟨s, member, inside⟩
      exact (parts s member).ranges r inside
    · exact fun s member => (parts s member).option

theorem IsMessageBody.writable {scope : Scope} {ws : List Word}
    {statements : List MessageStatement} (h : IsMessageBody scope ws statements)
    (shaped : AreShaped ws) : ∀ s ∈ statements, PartsWritable scope s := by
  match h with
  | .nil => exact nofun
  | .plain first rest =>
    obtain ⟨front, behind⟩ := areShaped_append.mp shaped
    exact List.forall_mem_cons.mpr ⟨first.writable front, IsMessageBody.writable rest behind⟩
  | .message first rest =>
    obtain ⟨front, behind⟩ := areShaped_append.mp shaped
    refine List.forall_mem_cons.mpr ⟨?_, IsMessageBody.writable rest behind⟩
    refine ⟨nofun, fun _ same => ?_, nofun, nofun, nofun⟩
    cases same
    exact .message (IsMessage.writable first front)

end

/-! ### Files -/

/-- What a statement of a file in this scope declares can be written. -/
structure FilePartsWritable (scope : Scope) (s : FileStatement) : Prop where
  type : ∀ t, s.type? = some t → TypeDecl.Writable scope t
  service : ∀ d, s.service? = some d → d.Writable scope
  extend : ∀ e, s.extend? = some e → e.Writable
  option : ∀ o, s.option? = some o → o.Writable

theorem IsFileStatement.writable {s : FileStatement} (h : IsFileStatement scope ws s)
    (shaped : AreShaped ws) : FilePartsWritable scope s := by
  cases h with
  | empty => exact ⟨nofun, nofun, nofun, nofun⟩
  | imported => exact ⟨nofun, nofun, nofun, nofun⟩
  | option phrase =>
    exact ⟨nofun, nofun, nofun, fun _ same => by cases same; exact phrase.writable shaped⟩
  | message phrase =>
    exact ⟨fun _ same => by cases same; exact .message (phrase.writable shaped), nofun, nofun, nofun⟩
  | enumType phrase =>
    exact ⟨fun _ same => by cases same; exact .enumType (phrase.writable shaped), nofun, nofun, nofun⟩
  | service phrase =>
    exact ⟨nofun, fun _ same => by cases same; exact phrase.writable shaped, nofun, nofun⟩
  | extend phrase =>
    exact ⟨nofun, nofun, fun _ same => by cases same; exact phrase.writable shaped, nofun⟩

theorem IsSequence.writable {statements : List FileStatement}
    (row : IsSequence (IsFileStatement scope) ws statements) (shaped : AreShaped ws) :
    ∀ s ∈ statements, FilePartsWritable scope s := by
  intro s member
  obtain ⟨part, inside, phrase⟩ := row.exists_of_mem member
  exact phrase.writable (shaped.mono inside)

theorem IsVersion.known {version : Option String} (h : IsVersion ws version) :
    version = none ∨ version = some knownVersion := by
  cases h with
  | absent => exact .inl rfl
  | present => exact .inr rfl

/-- What is picked from the statements in front of the package and what is picked behind it. -/
private theorem take_drop_countBefore {α : Type} (pick : FileStatement → Option α)
    (before behind : List FileStatement) :
    let count := min (before.filterMap pick).length ((before ++ behind).filterMap pick).length
    ((before ++ behind).filterMap pick).take count = before.filterMap pick ∧
      ((before ++ behind).filterMap pick).drop count = behind.filterMap pick := by
  have front : min (before.filterMap pick).length ((before ++ behind).filterMap pick).length =
      (before.filterMap pick).length := by
    rw [List.filterMap_append, List.length_append]
    omega
  simp only [front]
  rw [List.filterMap_append]
  exact ⟨List.take_left, List.drop_left⟩

/-- A file that is made of words that are read can be written. -/
theorem IsFile.writable {text : FileText} {name : String} {f : SchemaFile} (h : IsFile ws text)
    (shaped : AreShaped ws) (made : SchemaFile.make name text.body = .ok f) : f.Writable := by
  obtain ⟨_, rfl⟩ := SchemaFile.make_eq_ok_iff.mp made
  cases h with
  | @withoutPackage declared before _ _ version row =>
    have parts := row.writable (areShaped_append.mp shaped).2
    have whole : FileText.statements ⟨declared, before, none⟩ = before := List.append_nil before
    constructor
    case version => exact version.known
    case package => exact .inr ⟨rfl, Nat.zero_min _, Nat.zero_min _⟩
    all_goals
      simp only [FileText.body, FileText.countBefore, Option.isSome_none, Bool.false_eq_true,
        if_false, Nat.zero_min, List.take_zero, List.drop_zero, whole, List.forall_mem_filterMap]
    case typesBefore => exact List.forall_mem_nil _
    case types => exact fun s member => (parts s member).type
    case servicesBefore => exact List.forall_mem_nil _
    case services => exact fun s member => (parts s member).service
    case extendBlocks => exact fun s member => (parts s member).extend
    case options => exact fun s member => (parts s member).option
  | @withPackage declared before behind package _ _ _ _ _ _ version row row' =>
    simp only [areShaped_append, areShaped_cons] at shaped
    obtain ⟨_, front, _, ident, _, back⟩ := shaped
    have parts := row.writable front
    have parts' := row'.writable back
    have scope : packageScope package = [package] := if_neg ident.isIdent.ne_empty
    have whole : FileText.statements ⟨declared, before, some (package, behind)⟩ =
        before ++ behind := rfl
    obtain ⟨typesBefore, types⟩ := take_drop_countBefore FileStatement.type? before behind
    obtain ⟨servicesBefore, services⟩ := take_drop_countBefore FileStatement.service? before behind
    constructor
    case version => exact version.known
    case package => exact .inl ident.isIdent
    all_goals
      simp only [FileText.body, FileText.countBefore, Option.isSome_some, if_true, whole,
        typesBefore, types, servicesBefore, services, Option.map_some, Option.getD_some, scope,
        List.forall_mem_filterMap]
    case typesBefore => exact fun s member => (parts s member).type
    case types => exact fun s member => (parts' s member).type
    case servicesBefore => exact fun s member => (parts s member).service
    case services => exact fun s member => (parts' s member).service
    case extendBlocks =>
      exact List.forall_mem_append.mpr
        ⟨fun s member => (parts s member).extend, fun s member => (parts' s member).extend⟩
    case options =>
      exact List.forall_mem_append.mpr
        ⟨fun s member => (parts s member).option, fun s member => (parts' s member).option⟩

end Grammar

variable {config : DocConfig} {name : String} {text : List Char} {f : SchemaFile}

/-- What is parsed can be written. -/
theorem SchemaFile.writable_of_parse (h : parse config name text = .ok f) : f.Writable := by
  obtain ⟨_, _, words, phrase, made, _⟩ :=
    (ofStream_file_iff (TokenStream.ofText_isProper config text)
      fun _ => TokenStream.ne_eof_of_mem_ofText).mp h
  exact phrase.writable (TokenStream.isShaped_of_mem_words words) made

/-- A parsed file is read back from its own text exactly if nothing in it is named by a path behind a
signed name. -/
theorem SchemaFile.parse_text_iff_of_parse (h : parse config name text = .ok f) :
    parse {} name f.text.toList = .ok f ↔ ∀ n ∈ f.settingNames, ¬ IsSignedPath n := by
  obtain ⟨_, _, _, _, made, depth⟩ :=
    (ofStream_file_iff (TokenStream.ofText_isProper config text)
      fun _ => TokenStream.ne_eof_of_mem_ofText).mp h
  have same : f.name = name := by
    obtain ⟨_, rfl⟩ := SchemaFile.make_eq_ok_iff.mp made
    rfl
  have back := parse_text_iff (built_of_parse h) (writable_of_parse h)
  rw [same] at back
  rw [back, and_iff_right depth]
  simp [HasSignedPath]

/-- A text with a late package, whose declarations are documented in both ways. -/
def mixedText : String :=
  "/* Shared. */ message M \x7b map<string, .M> m = 1 [(x).y = \x7ba: -inf\x7d]; \x7d\n" ++
    "package p;\n// Codes.\n//\n// All of them.\nenum E \x7b option o = 'a' \"b\"; A = 0x0; \x7d"

/-- What that text is. -/
def mixedFile : SchemaFile where
  package := "p"
  typesBeforePackage := 1
  servicesBeforePackage := 0
  version := none
  imports := []
  publicImports := []
  types := [
    .message {
      name := "M"
      fullName := "M"
      doc := "Shared."
      fields := [⟨.repeated, "map<string, .M>", "m", 1, "", [⟨"(x).y", .map [⟨"a", .ident "-inf"⟩]⟩]⟩]
      nested := []
      extendBlocks := []
      extensions := []
      options := [] },
    .enumType ⟨"E", "p.E", "Codes.\n\nAll of them.", [⟨"A", 0, "", []⟩], [⟨"o", .str "ab"⟩]⟩]
  services := []
  extendBlocks := []
  options := []
  name := "mixed.proto"

theorem mixedFile_parse_text : parse {} "mixed.proto" mixedText.toList = .ok mixedFile ∧
    parse {} "mixed.proto" mixedFile.text.toList = .ok mixedFile := by
  have parsed : parse {} "mixed.proto" mixedText.toList = .ok mixedFile := by decide +kernel
  exact ⟨parsed, (SchemaFile.parse_text_iff_of_parse parsed).mpr (by decide)⟩

/-- A file with an option that is named by a path behind a signed name. -/
def signedPathFile : SchemaFile where
  package := ""
  typesBeforePackage := 0
  servicesBeforePackage := 0
  version := none
  imports := []
  publicImports := []
  types := []
  services := []
  extendBlocks := []
  options := [⟨"-inf.x", .int 1⟩]
  name := "signed.proto"

/-- The name is read as two identifiers and written as one word, which is a lexical fault. -/
theorem not_parse_text_of_signedPath :
    parse {} "signed.proto" "option -inf .x = 1;".toList = .ok signedPathFile ∧
      parse {} "signed.proto" signedPathFile.text.toList =
        .error (.lexical ⟨.illegalCharacter '-', ⟨1, 8, 7⟩⟩) := by
  decide +kernel

end ProtoSchema
