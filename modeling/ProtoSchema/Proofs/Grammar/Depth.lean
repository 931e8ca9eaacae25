import ProtoSchema.Schema.File

/-!
# Depth of nesting

How many messages and bracketed values stand inside each other, at most, in a value, a declaration
or a file. An enum, a service or an extend block does not count itself.
-/

namespace ProtoSchema

/-- The greatest measure in a list, zero if the list is empty. -/
def greatest {α : Type} (measure : α → Nat) : List α → Nat
  | [] => 0
  | x :: xs => max (measure x) (greatest measure xs)

theorem greatest_le_iff {α : Type} {measure : α → Nat} {xs : List α} {n : Nat} :
    greatest measure xs ≤ n ↔ ∀ x ∈ xs, measure x ≤ n := by
  induction xs with
  | nil => simp [greatest]
  | cons x xs ih => rw [greatest, Nat.max_le, ih, List.forall_mem_cons]

mutual

/-- How many brackets stand inside each other in a value. -/
def Value.depth : Value → Nat
  | .list items => Value.depthAll items + 1
  | .map entries => Setting.depthAll entries + 1
  | _ => 0

/-- The greatest depth of some values. -/
def Value.depthAll : List Value → Nat
  | [] => 0
  | v :: vs => max v.depth (Value.depthAll vs)

/-- The depth of the value that is set. -/
def Setting.depth : Setting → Nat
  | ⟨_, value⟩ => value.depth

/-- The greatest depth of some settings. -/
def Setting.depthAll : List Setting → Nat
  | [] => 0
  | s :: ss => max s.depth (Setting.depthAll ss)

end

theorem Value.depthAll_eq_greatest (vs : List Value) :
    Value.depthAll vs = greatest Value.depth vs := by
  induction vs with
  | nil => simp [Value.depthAll, greatest]
  | cons v vs ih => simp [Value.depthAll, greatest, ih]

theorem Setting.depthAll_eq_greatest (ss : List Setting) :
    Setting.depthAll ss = greatest Setting.depth ss := by
  induction ss with
  | nil => simp [Setting.depthAll, greatest]
  | cons s ss ih => simp [Setting.depthAll, greatest, ih]

theorem Value.depth_list_le_iff {items : List Value} {n : Nat} :
    (Value.list items).depth ≤ n + 1 ↔ ∀ v ∈ items, v.depth ≤ n := by
  rw [Value.depth, Nat.add_le_add_iff_right, Value.depthAll_eq_greatest, greatest_le_iff]

theorem Value.depth_map_le_iff {entries : List Setting} {n : Nat} :
    (Value.map entries).depth ≤ n + 1 ↔ ∀ s ∈ entries, s.depth ≤ n := by
  rw [Value.depth, Nat.add_le_add_iff_right, Setting.depthAll_eq_greatest, greatest_le_iff]

/-! ### Declarations -/

/-- The depth of the options of a field. -/
def Field.depth (f : Field) : Nat :=
  greatest Setting.depth f.options

/-- The depth of the fields of an extend block. -/
def ExtendBlock.depth (e : ExtendBlock) : Nat :=
  greatest Field.depth e.fields

/-- The depth of the options of an enum value. -/
def EnumValue.depth (v : EnumValue) : Nat :=
  greatest Setting.depth v.options

/-- The depth of the options of an enum and of its values. -/
def EnumType.depth (e : EnumType) : Nat :=
  max (greatest EnumValue.depth e.values) (greatest Setting.depth e.options)

/-- The depth of the options of a method. -/
def Method.depth (m : Method) : Nat :=
  greatest Setting.depth m.options

/-- The depth of the options of a service and of its methods. -/
def Service.depth (s : Service) : Nat :=
  max (greatest Setting.depth s.options) (greatest Method.depth s.methods)

mutual

/-- The depth of a message: one more than that of its contents. -/
def Message.depth : Message → Nat
  | ⟨_, _, _, fields, nested, extendBlocks, _, options⟩ =>
    max (max (greatest Field.depth fields) (TypeDecl.depthAll nested))
      (max (greatest ExtendBlock.depth extendBlocks) (greatest Setting.depth options)) + 1

/-- The depth of a type. -/
def TypeDecl.depth : TypeDecl → Nat
  | .message m => m.depth
  | .enumType e => e.depth

/-- The greatest depth of some types. -/
def TypeDecl.depthAll : List TypeDecl → Nat
  | [] => 0
  | t :: ts => max t.depth (TypeDecl.depthAll ts)

end

theorem TypeDecl.depthAll_eq_greatest (ts : List TypeDecl) :
    TypeDecl.depthAll ts = greatest TypeDecl.depth ts := by
  induction ts with
  | nil => simp [TypeDecl.depthAll, greatest]
  | cons t ts ih => simp [TypeDecl.depthAll, greatest, ih]

theorem Message.depth_pos (m : Message) : 0 < m.depth := by
  cases m
  simp [Message.depth]

/-- A message fits if there is room for one more level than its contents need. -/
theorem Message.depth_le_iff {m : Message} {n : Nat} :
    m.depth ≤ n + 1 ↔ (∀ f ∈ m.fields, f.depth ≤ n) ∧ (∀ t ∈ m.nested, t.depth ≤ n) ∧
      (∀ e ∈ m.extendBlocks, e.depth ≤ n) ∧ ∀ s ∈ m.options, s.depth ≤ n := by
  cases m
  simp only [Message.depth, TypeDecl.depthAll_eq_greatest, Nat.add_le_add_iff_right,
    Nat.max_le, greatest_le_iff, and_assoc]

/-- The depth of a file. -/
def SchemaFile.depth (f : SchemaFile) : Nat :=
  max (max (greatest TypeDecl.depth f.types) (greatest Service.depth f.services))
    (max (greatest ExtendBlock.depth f.extendBlocks) (greatest Setting.depth f.options))

theorem SchemaFile.depth_le_iff {f : SchemaFile} {n : Nat} :
    f.depth ≤ n ↔ (∀ t ∈ f.types, t.depth ≤ n) ∧ (∀ s ∈ f.services, s.depth ≤ n) ∧
      (∀ e ∈ f.extendBlocks, e.depth ≤ n) ∧ ∀ s ∈ f.options, s.depth ≤ n := by
  simp only [SchemaFile.depth, Nat.max_le, greatest_le_iff, and_assoc]

end ProtoSchema
