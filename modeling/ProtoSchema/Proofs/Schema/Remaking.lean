import ProtoSchema.Proofs.Schema.Validity

/-!
# Built declarations are made of their own parts

Whatever a built declaration was made of, it passes its check again with the parts that it has, and
is what comes of them.
-/

namespace ProtoSchema

theorem Field.make_of_built {f : Field} (h : f.Built) :
    make f.label f.typeName f.name f.tag f.doc f.options = .ok f := by
  obtain ⟨_, _, _, tag, _, _, made⟩ := h
  obtain ⟨name, typeName, valid, free, rfl⟩ := make_eq_ok_iff.mp made
  have positive : ((tag.toNat : Nat) : Int) = tag := by
    simp only [isTag, Bool.and_eq_true, decide_eq_true_eq] at valid
    omega
  exact make_eq_ok_iff.mpr ⟨name, typeName, by rwa [positive], by rwa [positive], by rw [positive]⟩

theorem ExtensionRange.make_of_built {r : ExtensionRange} (h : r.Built) :
    make r.doc r.first r.last = .ok r := by
  obtain ⟨_, first, last, made⟩ := h
  obtain ⟨positive, nonempty, small, rfl⟩ := make_eq_ok_iff.mp made
  have first' : ((first.toNat : Nat) : Int) = first := by omega
  have last' : ((last.toNat : Nat) : Int) = last := by omega
  rw [make_eq_ok_iff]
  dsimp only
  rw [first', last']
  exact ⟨positive, nonempty, small, rfl⟩

theorem ExtendBlock.make_of_built {e : ExtendBlock} (h : e.Built) :
    (∀ f ∈ e.fields, f.Built) ∧ make e.target e.doc e.fields = .ok e := by
  obtain ⟨_, _, _, fields, made⟩ := h
  obtain ⟨_, _, rfl⟩ := make_eq_ok_iff.mp made
  exact ⟨fields, made⟩

theorem EnumValue.make_of_built {v : EnumValue} (h : v.Built) :
    make v.name v.tag v.doc v.options = .ok v := by
  obtain ⟨_, _, _, _, made⟩ := h
  obtain ⟨_, _, rfl⟩ := make_eq_ok_iff.mp made
  exact made

theorem EnumType.make_of_built {e : EnumType} (h : e.Built) :
    (∀ v ∈ e.values, v.Built) ∧ make e.name e.fullName e.doc e.values e.options = .ok e := by
  obtain ⟨_, _, _, _, _, values, made⟩ := h
  obtain ⟨_, _, rfl⟩ := make_eq_ok_iff.mp made
  exact ⟨values, made⟩

theorem Method.make_of_built {m : Method} (h : m.Built) :
    make m.name m.doc m.request m.response m.options = .ok m := by
  obtain ⟨_, _, _, _, _, made⟩ := h
  obtain ⟨_, _, _, rfl⟩ := make_eq_ok_iff.mp made
  exact made

theorem Service.make_of_built {s : Service} (h : s.Built) :
    (∀ m ∈ s.methods, m.Built) ∧ make s.name s.fullName s.doc s.options s.methods = .ok s := by
  obtain ⟨_, _, _, _, _, methods, made⟩ := h
  obtain ⟨_, _, rfl⟩ := make_eq_ok_iff.mp made
  exact ⟨methods, made⟩

/-- What a message holds, sorted by kind. -/
def Message.body (m : Message) : MessageBody :=
  ⟨m.fields, m.nested, m.extendBlocks, m.extensions, m.options⟩

/-- What a built message holds is built, and the message is made of it. -/
structure Message.IsMadeOfParts (m : Message) : Prop where
  fields : ∀ f ∈ m.fields, f.Built
  nested : ∀ t ∈ m.nested, t.Built
  extendBlocks : ∀ e ∈ m.extendBlocks, e.Built
  extensions : ∀ r ∈ m.extensions, r.Built
  made : make m.name m.fullName m.doc m.body = .ok m

theorem Message.isMadeOfParts_of_built {m : Message} (h : m.Built) : m.IsMadeOfParts := by
  cases h with
  | make fields nested extendBlocks extensions made =>
    obtain ⟨_, _, _, _, rfl⟩ := make_eq_ok_iff.mp made
    exact ⟨fields, nested, extendBlocks, extensions, made⟩

/-- What a built file holds is built, and the file is made of it. -/
structure SchemaFile.IsMadeOfParts (f : SchemaFile) : Prop where
  types : ∀ t ∈ f.types, t.Built
  services : ∀ s ∈ f.services, s.Built
  extendBlocks : ∀ e ∈ f.extendBlocks, e.Built
  made : make f.name f.toFileBody = .ok f

theorem SchemaFile.isMadeOfParts_of_built {f : SchemaFile} (h : f.Built) : f.IsMadeOfParts := by
  obtain ⟨name, body, types, services, extendBlocks, made⟩ := h
  obtain ⟨distinct, rfl⟩ := make_eq_ok_iff.mp made
  have again (m n : Nat) : min (min m n) n = min m n := Nat.min_eq_left (Nat.min_le_right _ _)
  refine ⟨types, services, extendBlocks, make_eq_ok_iff.mpr ⟨distinct, ?_⟩⟩
  simp only [again]

end ProtoSchema
