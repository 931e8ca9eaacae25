import ProtoSchema.Schema.File

/-!
# When declarations are accepted

For each kind of declaration, the rules that it obeys if it passes its check, and what is made of
its parts. Rules about a list say how any two of its elements differ.
-/

namespace ProtoSchema

/-! ### Rules -/

theorem demand_bind_eq_ok_iff {α : Type} {condition : Bool} {violation : Violation}
    {next : Unit → Except Violation α} {x : α} :
    (demand condition violation >>= next) = .ok x ↔ condition = true ∧ next () = .ok x := by
  cases condition with
  | true => exact ⟨fun h => ⟨rfl, h⟩, fun h => h.2⟩
  | false => exact ⟨nofun, nofun⟩

theorem refuse_bind_eq_ok_iff {α : Type} {fault : Option Violation}
    {next : Unit → Except Violation α} {x : α} :
    (refuse fault >>= next) = .ok x ↔ fault = none ∧ next () = .ok x := by
  cases fault with
  | none => exact ⟨fun h => ⟨rfl, h⟩, fun h => h.2⟩
  | some violation => exact ⟨nofun, nofun⟩

/-- If an element is judged by itself and by each of the earlier ones, a list passes if each element
is good and any two of them agree. -/
theorem firstFault?_eq_none_iff_pairwise_and {α β : Type} {fault? : List α → α → Option β}
    {R : α → α → Prop} {p : α → Prop} {xs : List α}
    (judged : ∀ earlier x, fault? earlier x = none ↔ (∀ y ∈ earlier, R y x) ∧ p x) :
    firstFault? fault? [] xs = none ↔ xs.Pairwise R ∧ ∀ x ∈ xs, p x := by
  -- What has been passed is an argument of the search, so the induction is for all of it.
  have general : ∀ earlier, firstFault? fault? earlier xs = none ↔
      xs.Pairwise R ∧ (∀ y ∈ earlier, ∀ x ∈ xs, R y x) ∧ ∀ x ∈ xs, p x := by
    induction xs with
    | nil => simp [firstFault?]
    | cons x xs ih =>
      intro earlier
      rw [firstFault?]
      cases found : fault? earlier x with
      | some fault =>
        have bad : ¬ ((∀ y ∈ earlier, R y x) ∧ p x) := fun h => by
          simp [(judged earlier x).mpr h] at found
        simp only [reduceCtorEq, false_iff]
        rintro ⟨_, earlier, own⟩
        exact bad ⟨fun y h => earlier y h x List.mem_cons_self, own x List.mem_cons_self⟩
      | none =>
        obtain ⟨good, own⟩ := (judged earlier x).mp found
        rw [ih, List.pairwise_cons]
        simp only [List.mem_append, List.mem_cons, List.not_mem_nil, or_false]
        grind
  simpa using general []

theorem firstFault?_eq_none_iff_pairwise {α β : Type} {fault? : List α → α → Option β}
    {R : α → α → Prop} {xs : List α}
    (judged : ∀ earlier x, fault? earlier x = none ↔ ∀ y ∈ earlier, R y x) :
    firstFault? fault? [] xs = none ↔ xs.Pairwise R := by
  have passes : firstFault? fault? [] xs = none ↔ xs.Pairwise R ∧ ∀ x ∈ xs, True :=
    firstFault?_eq_none_iff_pairwise_and fun earlier x => by simp [judged]
  simpa using passes

/-! ### Fields -/

namespace Field

/-- A field that may stand in front of another one: neither its tag nor its name is the other's. -/
def Agrees (f g : Field) : Prop :=
  f.tag ≠ g.tag ∧ f.name ≠ g.name

theorem make_eq_ok_iff {label : Label} {typeName name : String} {tag : Int} {doc : String}
    {options : List Setting} {f : Field} :
    make label typeName name tag doc options = .ok f ↔
      name ≠ "" ∧ typeName ≠ "" ∧ isTag tag = true ∧ isReservedTag tag.toNat = false ∧
        ⟨label, typeName, name, tag.toNat, doc, options⟩ = f := by
  simp [make, demand_bind_eq_ok_iff, pure, Except.pure]

theorem fault?_eq_none_iff {scope : String} {ranges : List ExtensionRange} {earlier : List Field}
    {f : Field} :
    fault? scope ranges earlier f = none ↔
      (∀ g ∈ earlier, g.Agrees f) ∧ ∀ r ∈ ranges, r.contains f.tag = false := by
  unfold fault? Agrees
  split
  next first found =>
    have same := List.find?_some found
    have member := List.mem_of_find?_eq_some found
    simp only [decide_eq_true_eq] at same
    grind
  next none =>
    simp only [List.find?_eq_none, decide_eq_true_eq] at none
    split
    next repeated =>
      simp only [List.any_eq_true, decide_eq_true_eq] at repeated
      grind
    next distinct =>
      simp only [List.any_eq_true, decide_eq_true_eq, not_exists, not_and] at distinct
      simp only [Option.map_eq_none_iff, List.find?_eq_none, Bool.not_eq_true]
      grind

theorem firstFault?_fields_iff {scope : String} {ranges : List ExtensionRange}
    {fields : List Field} :
    firstFault? (fault? scope ranges) [] fields = none ↔
      fields.Pairwise Agrees ∧ ∀ f ∈ fields, ∀ r ∈ ranges, r.contains f.tag = false :=
  firstFault?_eq_none_iff_pairwise_and fun _ _ => fault?_eq_none_iff

end Field

theorem ExtensionRange.make_eq_ok_iff {doc : String} {first last : Int} {r : ExtensionRange} :
    make doc first last = .ok r ↔
      1 ≤ first ∧ first ≤ last ∧ last ≤ maxTag ∧ ⟨doc, first.toNat, last.toNat⟩ = r := by
  simp [make, demand_bind_eq_ok_iff, pure, Except.pure, and_assoc]

theorem ExtensionRange.firstFault?_ranges_iff {ranges : List ExtensionRange} :
    firstFault? fault? [] ranges = none ↔
      ranges.Pairwise fun r s => r.overlaps s = false :=
  firstFault?_eq_none_iff_pairwise fun _ _ => by simp [fault?]

theorem ExtendBlock.make_eq_ok_iff {target doc : String} {fields : List Field} {e : ExtendBlock} :
    make target doc fields = .ok e ↔
      target ≠ "" ∧ fields.Pairwise Field.Agrees ∧ ⟨target, doc, fields⟩ = e := by
  simp [make, demand_bind_eq_ok_iff, refuse_bind_eq_ok_iff, pure, Except.pure,
    Field.firstFault?_fields_iff]

/-! ### Enums -/

namespace EnumValue

/-- An enum value that may stand in front of another one: it has another name and, without aliases,
another number. -/
def Agrees (aliased : Bool) (v w : EnumValue) : Prop :=
  v.name ≠ w.name ∧ (aliased = false → v.tag ≠ w.tag)

theorem make_eq_ok_iff {name : String} {tag : Int} {doc : String} {options : List Setting}
    {v : EnumValue} :
    make name tag doc options = .ok v ↔
      name ≠ "" ∧ isEnumNumber tag = true ∧ ⟨name, tag, doc, options⟩ = v := by
  simp [make, demand_bind_eq_ok_iff, pure, Except.pure]

theorem fault?_eq_none_iff {scope : String} {aliased : Bool} {earlier : List EnumValue}
    {v : EnumValue} :
    fault? scope aliased earlier v = none ↔ ∀ w ∈ earlier, w.Agrees aliased v := by
  unfold fault? Agrees
  cases aliased with
  | true => simp
  | false =>
    simp only [List.any_eq_true, decide_eq_true_eq, Bool.false_eq_true, if_false, forall_const]
    split <;> simp <;> grind

theorem firstFault?_values_iff {scope : String} {aliased : Bool} {values : List EnumValue} :
    firstFault? (fault? scope aliased) [] values = none ↔ values.Pairwise (Agrees aliased) :=
  firstFault?_eq_none_iff_pairwise fun _ _ => fault?_eq_none_iff

end EnumValue

theorem EnumType.make_eq_ok_iff {name fullName doc : String} {values : List EnumValue}
    {options : List Setting} {e : EnumType} :
    make name fullName doc values options = .ok e ↔
      name ≠ "" ∧ values.Pairwise (EnumValue.Agrees (allowsAlias options)) ∧
        ⟨name, fullName, doc, values, options⟩ = e := by
  simp [make, demand_bind_eq_ok_iff, refuse_bind_eq_ok_iff, pure, Except.pure,
    EnumValue.firstFault?_values_iff]

/-! ### Services -/

theorem Method.make_eq_ok_iff {name doc request response : String} {options : List Setting}
    {m : Method} :
    make name doc request response options = .ok m ↔
      name ≠ "" ∧ request ≠ "" ∧ response ≠ "" ∧ ⟨name, doc, request, response, options⟩ = m := by
  simp [make, demand_bind_eq_ok_iff, pure, Except.pure]

theorem Service.make_eq_ok_iff {name fullName doc : String} {options : List Setting}
    {methods : List Method} {s : Service} :
    make name fullName doc options methods = .ok s ↔
      name ≠ "" ∧ (methods.map (·.name)).Nodup ∧
        ⟨name, fullName, doc, options, methods⟩ = s := by
  simp [make, demand_bind_eq_ok_iff, refuse_bind_eq_ok_iff, pure, Except.pure,
    firstRepeat?_eq_none_iff]

/-! ### Messages and files -/

theorem Message.make_eq_ok_iff {name fullName doc : String} {body : MessageBody} {m : Message} :
    make name fullName doc body = .ok m ↔
      name ≠ "" ∧ body.extensions.Pairwise (fun r s => r.overlaps s = false) ∧
      (body.fields.Pairwise Field.Agrees ∧
        ∀ f ∈ body.fields, ∀ r ∈ body.extensions, r.contains f.tag = false) ∧
      ((body.nested.map (·.name)).Nodup ∧
        ∀ t ∈ body.nested, ∀ f ∈ body.fields, f.name ≠ t.name) ∧
      ⟨name, fullName, doc, body.fields, body.nested, body.extendBlocks, body.extensions,
        body.options⟩ = m := by
  simp [make, demand_bind_eq_ok_iff, refuse_bind_eq_ok_iff, pure, Except.pure,
    ExtensionRange.firstFault?_ranges_iff, Field.firstFault?_fields_iff, firstRepeat?_eq_none_iff]

theorem SchemaFile.make_eq_ok_iff {name : String} {body : FileBody} {f : SchemaFile} :
    make name body = .ok f ↔
      (body.types.map (·.name) ++ body.services.map (·.name)).Nodup ∧
        { body with
          name
          typesBeforePackage := min body.typesBeforePackage body.types.length
          servicesBeforePackage := min body.servicesBeforePackage body.services.length } = f := by
  simp [make, refuse_bind_eq_ok_iff, pure, Except.pure, firstRepeat?_eq_none_iff]

end ProtoSchema
