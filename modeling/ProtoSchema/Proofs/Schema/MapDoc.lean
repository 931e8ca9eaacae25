import ProtoSchema.Schema.File

/-!
# Documentation and the rules

A function on texts, applied to all documentation in a declaration. No rule asks for documentation,
so a declaration is checked with the same outcome before and after. `undocumented` is what is left
when all documentation is erased.
-/

namespace ProtoSchema

variable {α β : Type}

/-! ### Declarations with other documentation -/

/-- A field with its documentation changed. -/
def Field.mapDoc (g : String → String) (f : Field) : Field :=
  { f with doc := g f.doc }

/-- A range with its documentation changed. -/
def ExtensionRange.mapDoc (g : String → String) (r : ExtensionRange) : ExtensionRange :=
  { r with doc := g r.doc }

/-- A block with its documentation and that of its fields changed. -/
def ExtendBlock.mapDoc (g : String → String) (e : ExtendBlock) : ExtendBlock :=
  { e with doc := g e.doc, fields := e.fields.map (Field.mapDoc g) }

/-- An enum value with its documentation changed. -/
def EnumValue.mapDoc (g : String → String) (v : EnumValue) : EnumValue :=
  { v with doc := g v.doc }

/-- An enum with its documentation and that of its values changed. -/
def EnumType.mapDoc (g : String → String) (e : EnumType) : EnumType :=
  { e with doc := g e.doc, values := e.values.map (EnumValue.mapDoc g) }

/-- A method with its documentation changed. -/
def Method.mapDoc (g : String → String) (m : Method) : Method :=
  { m with doc := g m.doc }

/-- A service with its documentation and that of its methods changed. -/
def Service.mapDoc (g : String → String) (s : Service) : Service :=
  { s with doc := g s.doc, methods := s.methods.map (Method.mapDoc g) }

mutual

/-- A message with its documentation and that of all that it holds changed. -/
def Message.mapDoc (g : String → String) : Message → Message
  | ⟨name, fullName, doc, fields, nested, extendBlocks, extensions, options⟩ =>
    ⟨name, fullName, g doc, fields.map (Field.mapDoc g), TypeDecl.mapDocAll g nested,
      extendBlocks.map (ExtendBlock.mapDoc g), extensions.map (ExtensionRange.mapDoc g), options⟩

/-- A type with its documentation changed. -/
def TypeDecl.mapDoc (g : String → String) : TypeDecl → TypeDecl
  | .message m => .message (m.mapDoc g)
  | .enumType e => .enumType (e.mapDoc g)

/-- Types with their documentation changed. -/
def TypeDecl.mapDocAll (g : String → String) : List TypeDecl → List TypeDecl
  | [] => []
  | t :: ts => t.mapDoc g :: TypeDecl.mapDocAll g ts

end

theorem TypeDecl.mapDocAll_eq_map (g : String → String) (ts : List TypeDecl) :
    TypeDecl.mapDocAll g ts = ts.map (TypeDecl.mapDoc g) := by
  induction ts with
  | nil => simp [TypeDecl.mapDocAll]
  | cons t ts ih => simp [TypeDecl.mapDocAll, ih]

/-- The contents of a message with their documentation changed. -/
def MessageBody.mapDoc (g : String → String) (b : MessageBody) : MessageBody where
  fields := b.fields.map (Field.mapDoc g)
  nested := b.nested.map (TypeDecl.mapDoc g)
  extendBlocks := b.extendBlocks.map (ExtendBlock.mapDoc g)
  extensions := b.extensions.map (ExtensionRange.mapDoc g)
  options := b.options

/-- The contents of a file with their documentation changed. -/
def FileBody.mapDoc (g : String → String) (b : FileBody) : FileBody :=
  { b with
    types := b.types.map (TypeDecl.mapDoc g)
    services := b.services.map (Service.mapDoc g)
    extendBlocks := b.extendBlocks.map (ExtendBlock.mapDoc g) }

/-- A file with its documentation changed. -/
def SchemaFile.mapDoc (g : String → String) (f : SchemaFile) : SchemaFile :=
  { f.toFileBody.mapDoc g with name := f.name }

/-- A file without its documentation. -/
def SchemaFile.undocumented (f : SchemaFile) : SchemaFile :=
  f.mapDoc fun _ => ""

/-! ### Names stay -/

section Names

variable (g : String → String)

@[simp] theorem TypeDecl.name_mapDoc (t : TypeDecl) : (t.mapDoc g).name = t.name := by
  cases t with
  | message m => cases m; simp [TypeDecl.mapDoc, Message.mapDoc, TypeDecl.name]
  | enumType e => simp [TypeDecl.mapDoc, EnumType.mapDoc, TypeDecl.name]

@[simp] theorem Service.name_mapDoc (s : Service) : (s.mapDoc g).name = s.name := rfl

end Names

/-! ### Checks do not ask for documentation -/

/-- If faults do not change under a function, the first one is found after it is applied. -/
theorem firstFault?_map {fault? fault'? : List α → α → Option β} {f : α → α}
    (same : ∀ earlier x, fault'? (earlier.map f) (f x) = fault? earlier x) (earlier xs : List α) :
    firstFault? fault'? (earlier.map f) (xs.map f) = firstFault? fault? earlier xs := by
  induction xs generalizing earlier with
  | nil => rfl
  | cons x xs ih =>
    rw [List.map_cons, firstFault?, firstFault?, same]
    -- The elements behind are checked with this one among the earlier ones.
    have later := ih (earlier ++ [x])
    rw [List.map_append, List.map_singleton] at later
    rw [later]

private theorem map_demand_bind {condition : Bool} {violation : Violation}
    {f : Unit → Except Violation α} {g : α → β} :
    (demand condition violation >>= f).map g =
      demand condition violation >>= fun u => (f u).map g := by
  cases condition <;> rfl

private theorem map_refuse_bind {fault : Option Violation} {f : Unit → Except Violation α}
    {g : α → β} : (refuse fault >>= f).map g = refuse fault >>= fun u => (f u).map g := by
  cases fault <;> rfl

section Checks

variable (g : String → String)

theorem Field.map_make (label : Label) (typeName name : String) (tag : Int) (doc : String)
    (options : List Setting) :
    (make label typeName name tag doc options).map (mapDoc g) =
      make label typeName name tag (g doc) options := by
  simp only [make, map_demand_bind]
  rfl

theorem ExtensionRange.map_make (doc : String) (first last : Int) :
    (make doc first last).map (mapDoc g) = make (g doc) first last := by
  simp only [make, map_demand_bind]
  rfl

theorem EnumValue.map_make (name : String) (tag : Int) (doc : String) (options : List Setting) :
    (make name tag doc options).map (mapDoc g) = make name tag (g doc) options := by
  simp only [make, map_demand_bind]
  rfl

theorem Method.map_make (name doc request response : String) (options : List Setting) :
    (make name doc request response options).map (mapDoc g) =
      make name (g doc) request response options := by
  simp only [make, map_demand_bind]
  rfl

private theorem Field.fault?_mapDoc (scope : String) (ranges : List ExtensionRange)
    (earlier : List Field) (f : Field) :
    Field.fault? scope (ranges.map (ExtensionRange.mapDoc g)) (earlier.map (mapDoc g))
      (f.mapDoc g) = Field.fault? scope ranges earlier f := by
  unfold Field.fault?
  rw [List.find?_map, List.any_map, List.find?_map, Option.map_map]
  have tags : earlier.find? ((fun x : Field => decide (x.tag = (f.mapDoc g).tag)) ∘ mapDoc g) =
    earlier.find? (·.tag = f.tag) := rfl
  rw [tags]
  cases earlier.find? (·.tag = f.tag) <;> rfl

private theorem ExtensionRange.fault?_mapDoc (earlier : List ExtensionRange)
    (r : ExtensionRange) :
    fault? (earlier.map (mapDoc g)) (r.mapDoc g) = fault? earlier r := by
  unfold fault?
  rw [List.any_map]
  rfl

private theorem EnumValue.fault?_mapDoc (scope : String) (aliased : Bool)
    (earlier : List EnumValue) (v : EnumValue) :
    fault? scope aliased (earlier.map (mapDoc g)) (v.mapDoc g) =
      fault? scope aliased earlier v := by
  unfold fault?
  rw [List.find?_map, List.any_map, Option.map_map]
  rfl

theorem ExtendBlock.map_make (target doc : String) (fields : List Field) :
    (make target doc fields).map (mapDoc g) =
      make target (g doc) (fields.map (Field.mapDoc g)) := by
  have faults := firstFault?_map (Field.fault?_mapDoc g target []) [] fields
  rw [List.map_nil, List.map_nil] at faults
  simp only [make, map_demand_bind, map_refuse_bind, faults]
  rfl

theorem EnumType.map_make (name fullName doc : String) (values : List EnumValue)
    (options : List Setting) :
    (make name fullName doc values options).map (mapDoc g) =
      make name fullName (g doc) (values.map (EnumValue.mapDoc g)) options := by
  have faults :=
    firstFault?_map (EnumValue.fault?_mapDoc g fullName (allowsAlias options)) [] values
  rw [List.map_nil] at faults
  simp only [make, map_demand_bind, map_refuse_bind, faults]
  rfl

theorem Service.map_make (name fullName doc : String) (options : List Setting)
    (methods : List Method) :
    (make name fullName doc options methods).map (mapDoc g) =
      make name fullName (g doc) options (methods.map (Method.mapDoc g)) := by
  have names : (methods.map (Method.mapDoc g)).map (·.name) = methods.map (·.name) :=
    List.map_map
  simp only [make, map_demand_bind, map_refuse_bind, names]
  rfl

theorem Message.map_make (name fullName doc : String) (body : MessageBody) :
    (make name fullName doc body).map (mapDoc g) = make name fullName (g doc) (body.mapDoc g) := by
  have ranges := firstFault?_map (ExtensionRange.fault?_mapDoc g) [] body.extensions
  have fields := firstFault?_map (Field.fault?_mapDoc g fullName body.extensions) [] body.fields
  rw [List.map_nil] at ranges fields
  have fieldNames : (body.fields.map (Field.mapDoc g)).map (·.name) = body.fields.map (·.name) :=
    List.map_map
  have typeNames : (body.nested.map (TypeDecl.mapDoc g)).map (·.name) = body.nested.map (·.name) :=
    by simp
  simp only [make, map_demand_bind, map_refuse_bind, MessageBody.mapDoc, ranges, fields,
    fieldNames, typeNames]
  -- The message itself is made of the same parts.
  have made : mapDoc g ⟨name, fullName, doc, body.fields, body.nested, body.extendBlocks,
      body.extensions, body.options⟩ = ⟨name, fullName, g doc, body.fields.map (Field.mapDoc g),
      body.nested.map (TypeDecl.mapDoc g), body.extendBlocks.map (ExtendBlock.mapDoc g),
      body.extensions.map (ExtensionRange.mapDoc g), body.options⟩ := by
    rw [mapDoc, TypeDecl.mapDocAll_eq_map]
  simp only [← made]
  rfl

theorem SchemaFile.map_make (name : String) (body : FileBody) :
    (make name body).map (mapDoc g) = make name (body.mapDoc g) := by
  have typeNames : (body.types.map (TypeDecl.mapDoc g)).map (·.name) = body.types.map (·.name) := by
    simp
  have serviceNames :
      (body.services.map (Service.mapDoc g)).map (·.name) = body.services.map (·.name) :=
    List.map_map
  simp only [make, map_refuse_bind, FileBody.mapDoc, typeNames, serviceNames, List.length_map]
  rfl

end Checks

/-! ### Documentation left as it is -/

theorem Field.mapDoc_id : Field.mapDoc id = id := rfl

theorem ExtensionRange.mapDoc_id : ExtensionRange.mapDoc id = id := rfl

theorem ExtendBlock.mapDoc_id : ExtendBlock.mapDoc id = id := by
  funext e
  simp [mapDoc, Field.mapDoc_id]

theorem EnumType.mapDoc_id : EnumType.mapDoc id = id := by
  funext e
  have values : EnumValue.mapDoc id = id := rfl
  simp [mapDoc, values]

theorem Service.mapDoc_id : Service.mapDoc id = id := by
  funext s
  have methods : Method.mapDoc id = id := rfl
  simp [mapDoc, methods]

mutual

private theorem Message.mapDoc_id_apply (m : Message) : m.mapDoc id = m := by
  match m with
  | ⟨_, _, _, _, nested, _, _, _⟩ =>
    have types := TypeDecl.mapDocAll_id nested
    simp [Message.mapDoc, types, Field.mapDoc_id, ExtendBlock.mapDoc_id, ExtensionRange.mapDoc_id]
termination_by structural m

private theorem TypeDecl.mapDoc_id_apply (t : TypeDecl) : t.mapDoc id = t := by
  match t with
  | .message m =>
    have body := Message.mapDoc_id_apply m
    simp [TypeDecl.mapDoc, body]
  | .enumType e => simp [TypeDecl.mapDoc, EnumType.mapDoc_id]
termination_by structural t

private theorem TypeDecl.mapDocAll_id (ts : List TypeDecl) : TypeDecl.mapDocAll id ts = ts := by
  match ts with
  | [] => simp [TypeDecl.mapDocAll]
  | t :: ts =>
    have first := TypeDecl.mapDoc_id_apply t
    have rest := TypeDecl.mapDocAll_id ts
    simp [TypeDecl.mapDocAll, first, rest]
termination_by structural ts

end

theorem Message.mapDoc_id : Message.mapDoc id = id :=
  funext Message.mapDoc_id_apply

theorem TypeDecl.mapDoc_id : TypeDecl.mapDoc id = id :=
  funext TypeDecl.mapDoc_id_apply

theorem SchemaFile.mapDoc_id : SchemaFile.mapDoc id = id := by
  funext f
  simp [mapDoc, FileBody.mapDoc, TypeDecl.mapDoc_id, Service.mapDoc_id, ExtendBlock.mapDoc_id]

end ProtoSchema
