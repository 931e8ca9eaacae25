import ProtoSchema.Proofs.Reading.Parse
import ProtoSchema.Proofs.Schema.Validity

/-!
# What is parsed is built

Every declaration of the grammar passed its check, so a parsed file is built out of built parts and
obeys the rules throughout. With that, all files there are do.
-/

namespace ProtoSchema

open Grammar Reading

namespace Grammar

variable {scope : Scope} {ws : List Word}

/-! ### Declarations -/

theorem IsFieldRest.built {doc typeName : String} {label : Label} {f : Field}
    (h : IsFieldRest doc label typeName ws f) : f.Built := by
  cases h with
  | intro _ _ made => exact ⟨_, _, _, _, _, _, made⟩

theorem IsField.built {f : Field} (h : IsField ws f) : f.Built := by
  cases h with
  | intro _ rest => exact rest.built

theorem IsMapField.built {f : Field} (h : IsMapField ws f) : f.Built := by
  cases h with
  | intro rest => exact rest.built

theorem IsExtensions.built {ranges : List ExtensionRange} (h : IsExtensions ws ranges) :
    ∀ r ∈ ranges, r.Built := by
  cases h with
  | intro list =>
    intro r member
    obtain ⟨_, _, phrase⟩ := list.exists_of_mem member
    cases phrase with
    | intro _ made => exact ⟨_, _, _, made⟩

theorem IsExtend.built {e : ExtendBlock} (h : IsExtend ws e) : e.Built := by
  cases h with
  | intro row made =>
    refine ⟨_, _, _, ?_, made⟩
    simp only [List.forall_mem_filterMap]
    intro s member f isField
    obtain ⟨_, _, phrase⟩ := row.exists_of_mem member
    cases phrase with
    | empty => cases isField
    | field phrase => cases isField; exact phrase.built

theorem IsEnum.built {e : EnumType} (h : IsEnum scope ws e) : e.Built := by
  cases h with
  | intro _ row made =>
    refine ⟨_, _, _, _, _, ?_, made⟩
    simp only [List.forall_mem_filterMap]
    intro s member v isValue
    obtain ⟨_, _, phrase⟩ := row.exists_of_mem member
    cases phrase with
    | value phrase =>
      cases isValue
      cases phrase with
      | intro _ _ _ made => exact ⟨_, _, _, _, made⟩
    | _ => cases isValue

theorem IsService.built {s : Service} (h : IsService scope ws s) : s.Built := by
  cases h with
  | intro _ row made =>
    refine ⟨_, _, _, _, _, ?_, made⟩
    simp only [List.forall_mem_filterMap]
    intro s member m isMethod
    obtain ⟨_, _, phrase⟩ := row.exists_of_mem member
    cases phrase with
    | method phrase =>
      cases isMethod
      cases phrase with
      | intro _ _ made => exact ⟨_, _, _, _, _, made⟩
    | _ => cases isMethod

/-! ### Messages -/

/-- What a statement of a message declares is built. -/
structure PartsBuilt (s : MessageStatement) : Prop where
  field : ∀ f, s.field? = some f → f.Built
  nested : ∀ t, s.nested? = some t → TypeDecl.Built t
  extend : ∀ e, s.extend? = some e → e.Built
  ranges : ∀ r ∈ s.ranges, r.Built

theorem IsPlainStatement.built {s : MessageStatement} (h : IsPlainStatement scope ws s) :
    PartsBuilt s := by
  cases h with
  | empty => exact ⟨nofun, nofun, nofun, nofun⟩
  | option => exact ⟨nofun, nofun, nofun, nofun⟩
  | field phrase => exact ⟨fun _ same => by cases same; exact phrase.built, nofun, nofun, nofun⟩
  | mapField phrase => exact ⟨fun _ same => by cases same; exact phrase.built, nofun, nofun, nofun⟩
  | enumType phrase =>
    exact ⟨nofun, fun _ same => by cases same; exact .enumType phrase.built, nofun, nofun⟩
  | extend phrase => exact ⟨nofun, nofun, fun _ same => by cases same; exact phrase.built, nofun⟩
  | extensions phrase => exact ⟨nofun, nofun, nofun, phrase.built⟩

mutual

theorem IsMessage.built {scope : Scope} {ws : List Word} {m : Message}
    (h : IsMessage scope ws m) : m.Built := by
  match h with
  | .intro _ body made =>
    have parts := IsMessageBody.built body
    refine .make ?_ ?_ ?_ ?_ made
    all_goals simp only [bodyOfStatements, List.forall_mem_filterMap, List.mem_flatMap]
    · exact fun s member => (parts s member).field
    · exact fun s member => (parts s member).nested
    · exact fun s member => (parts s member).extend
    · rintro r ⟨s, member, inside⟩
      exact (parts s member).ranges r inside

theorem IsMessageBody.built {scope : Scope} {ws : List Word} {statements : List MessageStatement}
    (h : IsMessageBody scope ws statements) : ∀ s ∈ statements, PartsBuilt s := by
  match h with
  | .nil => exact nofun
  | .plain first rest =>
    exact List.forall_mem_cons.mpr ⟨first.built, IsMessageBody.built rest⟩
  | .message first rest =>
    refine List.forall_mem_cons.mpr ⟨?_, IsMessageBody.built rest⟩
    exact ⟨nofun, fun _ same => by cases same; exact .message (IsMessage.built first), nofun, nofun⟩

end

/-! ### Files -/

/-- The declarations of a file statement are built. -/
theorem IsFileStatement.built {s : FileStatement} (h : IsFileStatement scope ws s) :
    (∀ t, s.type? = some t → TypeDecl.Built t) ∧ (∀ d, s.service? = some d → d.Built) ∧
      ∀ e, s.extend? = some e → e.Built := by
  cases h with
  | empty => exact ⟨nofun, nofun, nofun⟩
  | imported => exact ⟨nofun, nofun, nofun⟩
  | option => exact ⟨nofun, nofun, nofun⟩
  | message phrase => exact ⟨fun _ same => by cases same; exact .message phrase.built, nofun, nofun⟩
  | enumType phrase => exact ⟨fun _ same => by cases same; exact .enumType phrase.built, nofun, nofun⟩
  | service phrase => exact ⟨nofun, fun _ same => by cases same; exact phrase.built, nofun⟩
  | extend phrase => exact ⟨nofun, nofun, fun _ same => by cases same; exact phrase.built⟩

/-- Each statement of a file is one in some scope. -/
theorem IsFile.exists_of_mem {text : FileText} (h : IsFile ws text) {s : FileStatement}
    (member : s ∈ text.statements) : ∃ scope part, IsFileStatement scope part s := by
  cases h with
  | @withoutPackage _ before _ _ _ row =>
    have member : s ∈ before := by simpa [FileText.statements] using member
    obtain ⟨part, _, phrase⟩ := row.exists_of_mem member
    exact ⟨_, part, phrase⟩
  | withPackage _ row row' =>
    rcases List.mem_append.mp member with first | second
    · obtain ⟨part, _, phrase⟩ := row.exists_of_mem first
      exact ⟨_, part, phrase⟩
    · obtain ⟨part, _, phrase⟩ := row'.exists_of_mem second
      exact ⟨_, part, phrase⟩

theorem IsFile.built {text : FileText} {name : String} {f : SchemaFile} (h : IsFile ws text)
    (made : SchemaFile.make name text.body = .ok f) : f.Built := by
  -- In which scope a statement is read does not matter here.
  have parts : ∀ s ∈ text.statements, _ := fun s member =>
    let ⟨_, _, phrase⟩ := h.exists_of_mem member
    phrase.built
  refine ⟨name, text.body, ?_, ?_, ?_, made⟩
  all_goals simp only [FileText.body, List.forall_mem_filterMap]
  · exact fun s member => (parts s member).1
  · exact fun s member => (parts s member).2.1
  · exact fun s member => (parts s member).2.2

end Grammar

/-- What is parsed is built. -/
theorem built_of_parse {config : DocConfig} {name : String} {text : List Char} {f : SchemaFile}
    (h : parse config name text = .ok f) : f.Built := by
  obtain ⟨_, _, _, phrase, made, _⟩ := (ofStream_file_iff (TokenStream.ofText_isProper config text)
    fun _ => TokenStream.ne_eof_of_mem_ofText).mp h
  exact phrase.built made

/-- What bytes are parsed to, some text is parsed to. -/
theorem exists_parse_of_parseBytes {config : DocConfig} {name : String} {bytes : List UInt8}
    {f : SchemaFile} (h : parseBytes config name bytes = .ok f) :
    ∃ text, parse config name text = .ok f := by
  unfold parseBytes at h
  simp only at h
  split at h
  · exact ⟨_, h⟩
  · cases h

/-- The files there are: those that are parsed from a text or from bytes, and those that are built
out of built parts. -/
inductive SchemaFile.Obtained : SchemaFile → Prop
  | parsed {config : DocConfig} {name : String} {text : List Char} {f : SchemaFile} :
      parse config name text = .ok f → Obtained f
  | parsedBytes {config : DocConfig} {name : String} {bytes : List UInt8} {f : SchemaFile} :
      parseBytes config name bytes = .ok f → Obtained f
  | built {f : SchemaFile} : f.Built → Obtained f

/-- Every file there is obeys the rules throughout, and what its declarations hold is found by its
name and tag. -/
theorem SchemaFile.isValid_of_obtained {f : SchemaFile} (h : f.Obtained) :
    f.IsValid ∧ (∀ t, f.Holds t → t.FindsParts) ∧
      ∀ s ∈ f.services, ∀ m ∈ s.methods, s.method? m.name = some m := by
  have built : f.Built := by
    cases h with
    | parsed h => exact built_of_parse h
    | parsedBytes h =>
      obtain ⟨text, h⟩ := exists_parse_of_parseBytes h
      exact built_of_parse h
    | built h => exact h
  have valid := isValid_of_built built
  exact ⟨valid, fun t held => TypeDecl.findsParts_of_isValid (valid.types t held),
    fun s hs m hm => find?_key_eq_some (valid.services s hs) hm⟩

/-- A message with a field, an enum of two values and an extension range. -/
def pointMessage : Message where
  name := "Point"
  fullName := "geo.Point"
  doc := ""
  fields := [⟨.required, "Unit", "unit", 1, "", []⟩, ⟨.optional, "double", "x", 2, "", []⟩]
  nested := [.enumType ⟨"Unit", "geo.Point.Unit", "", [⟨"METRE", 0, "", []⟩, ⟨"FOOT", 1, "", []⟩], []⟩]
  extendBlocks := []
  extensions := [⟨"", 100, 199⟩]
  options := []

/-- A file with that message behind its package. -/
def pointFile : SchemaFile where
  package := "geo"
  typesBeforePackage := 0
  servicesBeforePackage := 0
  version := none
  imports := []
  publicImports := []
  types := [.message pointMessage]
  services := []
  extendBlocks := []
  options := []
  name := "point.proto"

private theorem pointMessage_built : pointMessage.Built := by
  have fields : ∀ f ∈ pointMessage.fields, f.Built := by
    refine List.forall_mem_cons.mpr ⟨⟨.required, "Unit", "unit", 1, "", [], rfl⟩,
      List.forall_mem_cons.mpr ⟨⟨.optional, "double", "x", 2, "", [], rfl⟩, nofun⟩⟩
  have values : ∀ v ∈ ([⟨"METRE", 0, "", []⟩, ⟨"FOOT", 1, "", []⟩] : List EnumValue), v.Built :=
    List.forall_mem_cons.mpr ⟨⟨"METRE", 0, "", [], rfl⟩,
      List.forall_mem_cons.mpr ⟨⟨"FOOT", 1, "", [], rfl⟩, nofun⟩⟩
  have unit : EnumType.Built ⟨"Unit", "geo.Point.Unit", "", _, []⟩ :=
    ⟨"Unit", "geo.Point.Unit", "", _, [], values, rfl⟩
  have made : Message.make "Point" "geo.Point" "" ⟨pointMessage.fields, pointMessage.nested, [],
      pointMessage.extensions, []⟩ = .ok pointMessage := rfl
  exact .make fields (List.forall_mem_cons.mpr ⟨.enumType unit, nofun⟩) (List.forall_mem_nil _)
    (List.forall_mem_cons.mpr ⟨⟨"", 100, 199, rfl⟩, nofun⟩) made

private theorem pointFile_built : pointFile.Built :=
  ⟨"point.proto", pointFile.toFileBody,
    List.forall_mem_cons.mpr ⟨.message pointMessage_built, nofun⟩, nofun, nofun, rfl⟩

theorem pointFile_isValid : pointFile.Obtained ∧ pointFile.IsValid ∧
    pointMessage.fieldByTag? 2 = some ⟨.optional, "double", "x", 2, "", []⟩ := by
  have obtained : pointFile.Obtained := .built pointFile_built
  obtain ⟨valid, found, _⟩ := SchemaFile.isValid_of_obtained obtained
  have inside : TypeDecl.FindsParts (.message pointMessage) :=
    found _ (.top List.mem_cons_self)
  exact ⟨obtained, valid, (inside _ (List.mem_cons_of_mem _ List.mem_cons_self)).2⟩

end ProtoSchema
