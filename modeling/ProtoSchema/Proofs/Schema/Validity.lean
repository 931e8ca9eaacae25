import ProtoSchema.Proofs.Schema.Construction

/-!
# Built declarations are valid

A declaration is built if it and all its parts passed their checks. `SchemaFile.IsValid` says what
that makes sure of throughout a file, however deep a type stands in it, and the lookups follow: what
a declaration holds is found under its own name or tag.
-/

namespace ProtoSchema

/-! ### Built declarations -/

/-- A field that passed its check. -/
def Field.Built (f : Field) : Prop :=
  ∃ label typeName name tag doc options, make label typeName name tag doc options = .ok f

/-- A range that passed its check. -/
def ExtensionRange.Built (r : ExtensionRange) : Prop :=
  ∃ doc first last, make doc first last = .ok r

/-- A block that passed its check, as did its fields. -/
def ExtendBlock.Built (e : ExtendBlock) : Prop :=
  ∃ target doc fields, (∀ f ∈ fields, f.Built) ∧ make target doc fields = .ok e

/-- An enum value that passed its check. -/
def EnumValue.Built (v : EnumValue) : Prop :=
  ∃ name tag doc options, make name tag doc options = .ok v

/-- An enum that passed its check, as did its values. -/
def EnumType.Built (e : EnumType) : Prop :=
  ∃ name fullName doc values options, (∀ v ∈ values, v.Built) ∧
    make name fullName doc values options = .ok e

/-- A method that passed its check. -/
def Method.Built (m : Method) : Prop :=
  ∃ name doc request response options, make name doc request response options = .ok m

/-- A service that passed its check, as did its methods. -/
def Service.Built (s : Service) : Prop :=
  ∃ name fullName doc options methods, (∀ m ∈ methods, m.Built) ∧
    make name fullName doc options methods = .ok s

mutual

/-- A message that passed its check, as did all that it holds. -/
inductive Message.Built : Message → Prop
  | make {name fullName doc : String} {body : MessageBody} {m : Message} :
      (∀ f ∈ body.fields, f.Built) → (∀ t ∈ body.nested, TypeDecl.Built t) →
      (∀ e ∈ body.extendBlocks, e.Built) → (∀ r ∈ body.extensions, r.Built) →
      Message.make name fullName doc body = .ok m → Message.Built m

/-- A type that passed its check, as did all that it holds. -/
inductive TypeDecl.Built : TypeDecl → Prop
  | message {m : Message} : Message.Built m → TypeDecl.Built (.message m)
  | enumType {e : EnumType} : e.Built → TypeDecl.Built (.enumType e)

end

/-- A file that passed its check, as did all that it holds. -/
def SchemaFile.Built (f : SchemaFile) : Prop :=
  ∃ name body, (∀ t ∈ body.types, TypeDecl.Built t) ∧ (∀ s ∈ body.services, s.Built) ∧
    (∀ e ∈ body.extendBlocks, e.Built) ∧ make name body = .ok f

/-! ### Valid declarations -/

/-- The fields in one place have tags free for use, and differ in their tags and names. -/
structure Field.AreValid (fields : List Field) : Prop where
  inRange : ∀ f ∈ fields, 1 ≤ f.tag ∧ f.tag ≤ 536870911
  notReserved : ∀ f ∈ fields, ¬ (19000 ≤ f.tag ∧ f.tag ≤ 19999)
  tags : (fields.map (·.tag)).Nodup
  names : (fields.map (·.name)).Nodup

/-- The rules that a message obeys by itself. -/
structure Message.IsValid (m : Message) : Prop where
  fields : Field.AreValid m.fields
  apart : ∀ f ∈ m.fields, ∀ r ∈ m.extensions, ¬ (r.first ≤ f.tag ∧ f.tag ≤ r.last)
  ranges : ∀ r ∈ m.extensions, 1 ≤ r.first ∧ r.first ≤ r.last ∧ r.last ≤ 536870911
  disjoint : m.extensions.Pairwise fun r s => r.last < s.first ∨ s.last < r.first
  nestedNames : (m.nested.map TypeDecl.name).Nodup
  namesApart : ∀ t ∈ m.nested, ∀ f ∈ m.fields, t.name ≠ f.name
  extendBlocks : ∀ e ∈ m.extendBlocks, Field.AreValid e.fields

/-- The rules that an enum obeys. -/
structure EnumType.IsValid (e : EnumType) : Prop where
  names : (e.values.map (·.name)).Nodup
  tags : Setting.find? e.options "allow_alias" ≠ some (.ident "true") → (e.values.map (·.tag)).Nodup

/-- The rules that a type obeys by itself. -/
def TypeDecl.IsValid : TypeDecl → Prop
  | .message m => m.IsValid
  | .enumType e => e.IsValid

/-- The types of a file, at its top or inside another one. -/
inductive SchemaFile.Holds (f : SchemaFile) : TypeDecl → Prop
  | top {t : TypeDecl} : t ∈ f.types → f.Holds t
  | inside {t u : TypeDecl} : f.Holds u → t ∈ u.nested → f.Holds t

/-- The rules that a file obeys throughout. -/
structure SchemaFile.IsValid (f : SchemaFile) : Prop where
  types : ∀ t, f.Holds t → t.IsValid
  services : ∀ s ∈ f.services, (s.methods.map (·.name)).Nodup
  extendBlocks : ∀ e ∈ f.extendBlocks, Field.AreValid e.fields
  names : (f.types.map TypeDecl.name ++ f.services.map (·.name)).Nodup
  typesBeforePackage : f.typesBeforePackage ≤ f.types.length
  servicesBeforePackage : f.servicesBeforePackage ≤ f.services.length

/-! ### From the checks to the rules -/

theorem Field.pairwise_agrees_iff {fields : List Field} :
    fields.Pairwise Field.Agrees ↔ (fields.map (·.tag)).Nodup ∧ (fields.map (·.name)).Nodup := by
  simp only [List.Nodup, List.pairwise_map, ← List.pairwise_and_iff]
  rfl

theorem Field.tag_of_built {f : Field} (h : f.Built) :
    (1 ≤ f.tag ∧ f.tag ≤ 536870911) ∧ ¬ (19000 ≤ f.tag ∧ f.tag ≤ 19999) := by
  obtain ⟨_, _, _, tag, _, _, made⟩ := h
  obtain ⟨_, _, valid, free, rfl⟩ := make_eq_ok_iff.mp made
  simp only [isTag, Bool.and_eq_true, decide_eq_true_eq] at valid
  simp only [maxTag] at valid
  simp only [isReservedTag, Bool.and_eq_false_iff, decide_eq_false_iff_not] at free
  dsimp only
  omega

theorem Field.areValid_of_built {fields : List Field} (built : ∀ f ∈ fields, f.Built)
    (agree : fields.Pairwise Field.Agrees) : Field.AreValid fields where
  inRange f member := (tag_of_built (built f member)).1
  notReserved f member := (tag_of_built (built f member)).2
  tags := (pairwise_agrees_iff.mp agree).1
  names := (pairwise_agrees_iff.mp agree).2

theorem ExtensionRange.bounds_of_built {r : ExtensionRange} (h : r.Built) :
    1 ≤ r.first ∧ r.first ≤ r.last ∧ r.last ≤ 536870911 := by
  obtain ⟨_, first, last, made⟩ := h
  obtain ⟨_, _, _, rfl⟩ := make_eq_ok_iff.mp made
  simp only [maxTag] at *
  omega

theorem ExtendBlock.areValid_of_built {e : ExtendBlock} (h : e.Built) :
    Field.AreValid e.fields := by
  obtain ⟨_, _, fields, built, made⟩ := h
  obtain ⟨_, agree, rfl⟩ := make_eq_ok_iff.mp made
  exact Field.areValid_of_built built agree

/-- An enum allows aliases exactly if the option for it is set to the identifier `true`. -/
theorem EnumType.allowsAlias_iff {options : List Setting} :
    allowsAlias options = true ↔ Setting.find? options "allow_alias" = some (.ident "true") := by
  unfold allowsAlias
  cases Setting.find? options "allow_alias" with
  | none => simp
  | some v => cases v <;> simp [Value.bool?, Value.ident?]

theorem EnumType.isValid_of_built {e : EnumType} (h : e.Built) : e.IsValid := by
  obtain ⟨_, _, _, values, options, _, made⟩ := h
  obtain ⟨_, agree, rfl⟩ := make_eq_ok_iff.mp made
  constructor
  · exact List.pairwise_map.mpr (agree.imp fun h => h.1)
  · intro distinct
    have strict : allowsAlias options = false := by
      simpa [← allowsAlias_iff] using distinct
    exact List.pairwise_map.mpr (agree.imp fun h => h.2 strict)

theorem Message.isValid_of_built {m : Message} (h : m.Built) :
    m.IsValid ∧ ∀ t ∈ m.nested, TypeDecl.Built t := by
  cases h with
  | make fields nested extendBlocks ranges made =>
    obtain ⟨_, disjoint, ⟨agree, apart⟩, ⟨names, namesApart⟩, rfl⟩ := make_eq_ok_iff.mp made
    refine ⟨?_, nested⟩
    exact {
      fields := Field.areValid_of_built fields agree
      apart := fun f hf r hr => by
        have outside := apart f hf r hr
        simp only [ExtensionRange.contains, Bool.and_eq_false_iff, decide_eq_false_iff_not]
          at outside
        omega
      ranges := fun r member => ExtensionRange.bounds_of_built (ranges r member)
      disjoint := disjoint.imp fun {r s} h => by
        simp only [ExtensionRange.overlaps, Bool.and_eq_false_iff, decide_eq_false_iff_not] at h
        omega
      nestedNames := names
      namesApart := fun t ht f hf => (namesApart t ht f hf).symm
      extendBlocks := fun e member => ExtendBlock.areValid_of_built (extendBlocks e member) }

theorem TypeDecl.isValid_of_built {t : TypeDecl} (h : TypeDecl.Built t) :
    t.IsValid ∧ ∀ u ∈ t.nested, TypeDecl.Built u := by
  cases h with
  | message built => exact Message.isValid_of_built built
  | enumType built => exact ⟨EnumType.isValid_of_built built, by simp [nested]⟩

theorem Service.names_of_built {s : Service} (h : s.Built) :
    (s.methods.map (·.name)).Nodup := by
  obtain ⟨_, _, _, _, _, _, made⟩ := h
  obtain ⟨_, distinct, rfl⟩ := make_eq_ok_iff.mp made
  exact distinct

namespace SchemaFile

/-- All types of a built file are built. -/
theorem Holds.built {f : SchemaFile} {t : TypeDecl} (types : ∀ t ∈ f.types, TypeDecl.Built t)
    (h : f.Holds t) : TypeDecl.Built t := by
  induction h with
  | top member => exact types _ member
  | inside _ member ih => exact (TypeDecl.isValid_of_built ih).2 _ member

theorem isValid_of_built {f : SchemaFile} (h : f.Built) : f.IsValid := by
  obtain ⟨name, body, types, services, extendBlocks, made⟩ := h
  obtain ⟨names, rfl⟩ := make_eq_ok_iff.mp made
  exact {
    types := fun t held => (TypeDecl.isValid_of_built (held.built types)).1
    services := fun s member => Service.names_of_built (services s member)
    extendBlocks := fun e member => ExtendBlock.areValid_of_built (extendBlocks e member)
    names := names
    typesBeforePackage := Nat.min_le_right _ _
    servicesBeforePackage := Nat.min_le_right _ _ }

end SchemaFile

/-! ### Lookups -/

/-- Where keys differ, an element is found under its own key. -/
theorem find?_key_eq_some {α β : Type} [DecidableEq β] {key : α → β} {xs : List α} {x : α}
    (distinct : (xs.map key).Nodup) (member : x ∈ xs) :
    xs.find? (fun y => decide (key y = key x)) = some x := by
  induction xs with
  | nil => cases member
  | cons y ys ih =>
    rw [List.map_cons, List.nodup_cons] at distinct
    rcases List.mem_cons.mp member with rfl | later
    · simp
    · have differs : key y ≠ key x := fun same =>
        distinct.1 (same ▸ List.mem_map_of_mem later)
      simpa [differs] using ih distinct.2 later

/-- The lookups of a type find what it holds. -/
def TypeDecl.FindsParts : TypeDecl → Prop
  | .message m => ∀ f ∈ m.fields, m.field? f.name = some f ∧ m.fieldByTag? f.tag = some f
  | .enumType e => ∀ v ∈ e.values, e.value? v.name = some v

theorem TypeDecl.findsParts_of_isValid {t : TypeDecl} (h : t.IsValid) : t.FindsParts := by
  cases t with
  | message m =>
    have fields := Message.IsValid.fields h
    exact fun f member =>
      ⟨find?_key_eq_some fields.names member, find?_key_eq_some fields.tags member⟩
  | enumType e => exact fun v member => find?_key_eq_some (EnumType.IsValid.names h) member

end ProtoSchema
