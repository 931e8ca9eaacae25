import ProtoSchema.Json.Schema
import ProtoSchema.Proofs.Json.Text
import ProtoSchema.Proofs.Schema.Naming

/-!
# JSON tells files apart

The JSON form of each declaration tells it apart from all others, and so does the text of that form,
for a parsed file holds finite numbers only. The form of a file leaves out how many declarations stand
in front of its package. These are the ones that the package has no part in, so their full names are
their names, and nobody else's is.
-/

namespace ProtoSchema

open Reading

/-! ### Values -/

@[simp] theorem Json.nat_inj {m n : Nat} : Json.nat m = Json.nat n ↔ m = n :=
  ⟨fun same => Int.ofNat.inj (Json.int.inj same), fun same => by rw [same]⟩

mutual

private theorem Value.eq_of_json (v w : Value) (same : v.json = w.json) : v = w := by
  match v with
  | .int _ | .float _ | .str _ | .ident _ => cases w <;> simp_all [Value.json, Json.tagged]
  | .bytes bytes =>
    cases w with
    | bytes bytes' =>
      have inside : bytes.map (fun byte => Json.nat byte.toNat) =
          bytes'.map fun byte => Json.nat byte.toNat := by
        simpa [Value.json, Json.tagged] using same
      rw [(List.map_inj_right fun _ _ same => UInt8.toNat_inj.mp (Json.nat_inj.mp same)).mp inside]
    | _ => simp [Value.json, Json.tagged] at same
  | .list items =>
    cases w with
    | list items' =>
      have inside : Value.jsonAll items = Value.jsonAll items' := by
        simpa [Value.json, Json.tagged] using same
      rw [Value.eq_of_jsonAll items items' inside]
    | _ => simp [Value.json, Json.tagged] at same
  | .map entries =>
    cases w with
    | map entries' =>
      have inside : Setting.jsonAll entries = Setting.jsonAll entries' := by
        simpa [Value.json, Json.tagged] using same
      rw [Setting.eq_of_jsonAll entries entries' inside]
    | _ => simp [Value.json, Json.tagged] at same
termination_by structural v

private theorem Value.eq_of_jsonAll (vs ws : List Value) (same : Value.jsonAll vs = Value.jsonAll ws) :
    vs = ws := by
  match vs, ws with
  | [], [] => rfl
  | [], _ :: _ => cases same
  | _ :: _, [] => cases same
  | v :: vs, w :: ws =>
    obtain ⟨first, later⟩ := List.cons.inj same
    rw [Value.eq_of_json v w first, Value.eq_of_jsonAll vs ws later]
termination_by structural vs

private theorem Setting.eq_of_json (s t : Setting) (same : s.json = t.json) : s = t := by
  match s, t with
  | ⟨name, value⟩, ⟨name', value'⟩ =>
    have parts : name = name' ∧ value.json = value'.json := by simpa [Setting.json] using same
    rw [parts.1, Value.eq_of_json value value' parts.2]
termination_by structural s

private theorem Setting.eq_of_jsonAll (ss ts : List Setting)
    (same : Setting.jsonAll ss = Setting.jsonAll ts) : ss = ts := by
  match ss, ts with
  | [], [] => rfl
  | [], _ :: _ => cases same
  | _ :: _, [] => cases same
  | s :: ss, t :: ts =>
    obtain ⟨first, later⟩ := List.cons.inj same
    rw [Setting.eq_of_json s t first, Setting.eq_of_jsonAll ss ts later]
termination_by structural ss

end

@[simp] theorem Setting.json_inj {s t : Setting} : s.json = t.json ↔ s = t :=
  ⟨Setting.eq_of_json s t, fun same => by rw [same]⟩

/-! ### Declarations -/

@[simp] theorem optionsJson_inj {options options' : List Setting} :
    optionsJson options = optionsJson options' ↔ options = options' := by
  simp [optionsJson, List.map_inj_right]

@[simp] theorem Label.spelling_inj {l m : Label} : l.spelling = m.spelling ↔ l = m := by
  cases l <;> cases m <;> decide

@[simp] theorem Field.json_inj {f g : Field} : f.json = g.json ↔ f = g := by
  cases f
  cases g
  simp [json]

@[simp] theorem ExtensionRange.json_inj {r s : ExtensionRange} : r.json = s.json ↔ r = s := by
  cases r
  cases s
  simp [json]

@[simp] theorem ExtendBlock.json_inj {e f : ExtendBlock} : e.json = f.json ↔ e = f := by
  cases e
  cases f
  simp [json, List.map_inj_right]

@[simp] theorem EnumValue.json_inj {v w : EnumValue} : v.json = w.json ↔ v = w := by
  cases v
  cases w
  simp [json]

@[simp] theorem EnumType.json_inj {d e : EnumType} : d.json = e.json ↔ d = e := by
  cases d
  cases e
  simp [json, List.map_inj_right]

@[simp] theorem Method.json_inj {m n : Method} : m.json = n.json ↔ m = n := by
  cases m
  cases n
  simp [json]

@[simp] theorem Service.json_inj {s t : Service} : s.json = t.json ↔ s = t := by
  cases s
  cases t
  simp [json, List.map_inj_right]

mutual

private theorem Message.eq_of_json (m n : Message) (same : m.json = n.json) : m = n := by
  match m, n with
  | ⟨_, _, _, _, nested, _, _, _⟩, ⟨_, _, _, _, nested', _, _, _⟩ =>
    have types : TypeDecl.jsonAll nested = TypeDecl.jsonAll nested' ↔ nested = nested' :=
      ⟨TypeDecl.eq_of_jsonAll nested nested', fun same => by rw [same]⟩
    simpa [Message.json, List.map_inj_right, types] using same
termination_by structural m

private theorem TypeDecl.eq_of_json (t u : TypeDecl) (same : t.json = u.json) : t = u := by
  match t, u with
  | .message m, .message n => rw [Message.eq_of_json m n same]
  | .enumType d, .enumType e => rw [EnumType.json_inj.mp same]
  | .message m, .enumType e => cases m; simp [TypeDecl.json, Message.json, EnumType.json] at same
  | .enumType d, .message n => cases n; simp [TypeDecl.json, Message.json, EnumType.json] at same
termination_by structural t

private theorem TypeDecl.eq_of_jsonAll (ts us : List TypeDecl)
    (same : TypeDecl.jsonAll ts = TypeDecl.jsonAll us) : ts = us := by
  match ts, us with
  | [], [] => rfl
  | [], _ :: _ => cases same
  | _ :: _, [] => cases same
  | t :: ts, u :: us =>
    obtain ⟨first, later⟩ := List.cons.inj same
    rw [TypeDecl.eq_of_json t u first, TypeDecl.eq_of_jsonAll ts us later]
termination_by structural ts

end

@[simp] theorem TypeDecl.json_inj {t u : TypeDecl} : t.json = u.json ↔ t = u :=
  ⟨TypeDecl.eq_of_json t u, fun same => by rw [same]⟩

/-! ### Finite numbers -/

mutual

private theorem Value.isFinite_json (v : Value) (h : v.Writable) : v.json.IsFinite := by
  match v with
  | .int _ | .str _ | .ident _ => simp [Value.json, Json.tagged]
  | .float x =>
    have finite : x.isFinite = true := h
    simpa [Value.json, Json.tagged] using finite
  | .bytes _ => simp [Value.json, Json.tagged, Json.nat]
  | .list items =>
    have inside := Value.isFinite_jsonAll items h
    simpa [Value.json, Json.tagged] using inside
  | .map entries =>
    have inside := Setting.isFinite_jsonAll entries h
    simpa [Value.json, Json.tagged] using inside
termination_by structural v

private theorem Value.isFinite_jsonAll (vs : List Value) (h : Value.AllWritable vs) :
    ∀ item ∈ Value.jsonAll vs, item.IsFinite := by
  match vs with
  | [] => exact List.forall_mem_nil _
  | v :: vs =>
    exact List.forall_mem_cons.mpr ⟨Value.isFinite_json v h.1, Value.isFinite_jsonAll vs h.2⟩
termination_by structural vs

private theorem Setting.isFinite_json_entry (s : Setting) (h : s.IsWritableEntry) :
    s.json.IsFinite := by
  match s with
  | ⟨_, value⟩ => simpa [Setting.json] using Value.isFinite_json value h.2
termination_by structural s

private theorem Setting.isFinite_jsonAll (ss : List Setting) (h : Setting.AllWritable ss) :
    ∀ item ∈ Setting.jsonAll ss, item.IsFinite := by
  match ss with
  | [] => exact List.forall_mem_nil _
  | s :: ss =>
    exact List.forall_mem_cons.mpr
      ⟨Setting.isFinite_json_entry s h.1, Setting.isFinite_jsonAll ss h.2⟩
termination_by structural ss

end

theorem isFinite_optionsJson {options : List Setting} (h : ∀ s ∈ options, s.Writable) :
    (optionsJson options).IsFinite := by
  simp only [optionsJson, Json.isFinite_arr_iff, List.forall_mem_map]
  rintro ⟨name, value⟩ member
  simpa [Setting.json] using Value.isFinite_json value (h _ member).value

theorem Field.isFinite_json {f : Field} (options : ∀ s ∈ f.options, s.Writable) :
    f.json.IsFinite := by
  simp [json, Json.nat, isFinite_optionsJson options]

theorem ExtensionRange.isFinite_json (r : ExtensionRange) : r.json.IsFinite := by
  simp [json, Json.nat]

theorem ExtendBlock.isFinite_json {e : ExtendBlock} (h : e.Writable) : e.json.IsFinite := by
  have fields : ∀ f ∈ e.fields, f.json.IsFinite :=
    fun f member => Field.isFinite_json (h.fields f member).options
  simpa [json] using fields

theorem EnumType.isFinite_json {scope : Scope} {e : EnumType} (h : e.Writable scope) :
    e.json.IsFinite := by
  have values : ∀ v ∈ e.values, v.json.IsFinite := fun v member => by
    simp [EnumValue.json, isFinite_optionsJson (h.values v member).options]
  simpa [json, isFinite_optionsJson h.options] using values

theorem Service.isFinite_json {scope : Scope} {s : Service} (h : s.Writable scope) :
    s.json.IsFinite := by
  have methods : ∀ m ∈ s.methods, m.json.IsFinite := fun m member => by
    simp [Method.json, isFinite_optionsJson (h.methods m member).options]
  simpa [json, isFinite_optionsJson h.options] using methods

theorem TypeDecl.isFinite_json {scope : Scope} {t : TypeDecl} (h : t.Writable scope) :
    t.json.IsFinite := by
  induction t using nested_induction generalizing scope with
  | step t ih =>
    have inside : ∀ u ∈ t.nested, u.json.IsFinite := fun u nested => ih u nested (h.nested u nested)
    cases h with
    | enumType h => exact EnumType.isFinite_json h
    | @message _ m h =>
      cases h with
      | intro _ _ _ fields _ extendBlocks _ options =>
        obtain ⟨_, _, _, _, _, _, _, _⟩ := m
        have fields := fun f member => Field.isFinite_json
          ((fields f member).elim Field.Writable.options Field.IsWritableMap.options)
        have extendBlocks := fun e member => ExtendBlock.isFinite_json (extendBlocks e member)
        simp only [TypeDecl.json, Message.json, jsonAll_eq_map]
        simpa [isFinite_optionsJson options, ExtensionRange.isFinite_json] using
          ⟨fields, inside, extendBlocks⟩

namespace SchemaFile

variable {f g : SchemaFile}

theorem isFinite_json (h : f.Writable) : f.json.IsFinite := by
  have types := forall_mem_of_take_drop
    (fun t member => TypeDecl.isFinite_json (h.typesBefore t member))
    fun t member => TypeDecl.isFinite_json (h.types t member)
  have services := forall_mem_of_take_drop
    (fun s member => Service.isFinite_json (h.servicesBefore s member))
    fun s member => Service.isFinite_json (h.services s member)
  have extendBlocks := fun e member => ExtendBlock.isFinite_json (h.extendBlocks e member)
  have version : ((f.version.map Json.str).getD .null).IsFinite := by
    cases f.version <;> simp
  simpa [json, isFinite_optionsJson h.options, version] using ⟨types, services, extendBlocks⟩

/-! ### Where the package stands -/

/-- A name is its own full name in the outermost scope only. -/
theorem qualify_eq_self_iff {scope : Scope} {name : String} :
    scope.qualify name = name ↔ scope.front = [] := by
  rw [← String.toList_inj, Scope.toList_qualify, List.append_left_eq_self]

/-- The first of some things are counted by what holds of them and not of the others. -/
private theorem countP_of_take_drop {α : Type} {p : α → Bool} {xs : List α} {n : Nat}
    (few : n ≤ xs.length) (front : ∀ x ∈ xs.take n, p x = true)
    (back : ∀ x ∈ xs.drop n, ¬ p x = true) : xs.countP p = n := by
  rw [← List.take_append_drop n xs, List.countP_append, List.countP_eq_length.mpr front,
    List.countP_eq_zero.mpr back, List.length_take]
  omega

/-- As many declarations stand in front of the package as have their names for full names. -/
private theorem countBefore_eq {α : Type} {name fullName : α → String} {xs : List α} {n : Nat}
    {package : String} (few : n ≤ xs.length) (absent : package = "" → n = 0)
    (front : ∀ x ∈ xs.take n, fullName x = Scope.qualify [] (name x))
    (back : ∀ x ∈ xs.drop n, fullName x = (packageScope package).qualify (name x)) :
    n = if package = "" then 0 else xs.countP fun x => fullName x = name x := by
  by_cases none : package = ""
  · rw [if_pos none, absent none]
  · rw [if_neg none, countP_of_take_drop few]
    · intro x member
      simp [front x member, qualify_eq_self_iff, Scope.front]
    · intro x member
      simp [back x member, qualify_eq_self_iff, Scope.front, packageScope, none]

theorem typesBeforePackage_eq (few : f.typesBeforePackage ≤ f.types.length) (h : f.Writable) :
    f.typesBeforePackage =
      if f.package = "" then 0 else f.types.countP fun t => t.fullName = t.name :=
  countBefore_eq few (fun none => h.package.elim (fun ident => absurd none ident.ne_empty) (·.2.1))
    (fun t member => (h.typesBefore t member).fullName_eq_qualify)
    fun t member => (h.types t member).fullName_eq_qualify

theorem servicesBeforePackage_eq (few : f.servicesBeforePackage ≤ f.services.length)
    (h : f.Writable) :
    f.servicesBeforePackage =
      if f.package = "" then 0 else f.services.countP fun s => s.fullName = s.name :=
  countBefore_eq few (fun none => h.package.elim (fun ident => absurd none ident.ne_empty) (·.2.2))
    (fun s member => (h.servicesBefore s member).fullName)
    fun s member => (h.services s member).fullName

/-! ### Files -/

/-- The form of a file tells all that the file has but the two numbers. -/
theorem json_eq_iff : f.json = g.json ↔
    f.name = g.name ∧ f.package = g.package ∧ f.version = g.version ∧ f.imports = g.imports ∧
      f.publicImports = g.publicImports ∧ f.types = g.types ∧ f.services = g.services ∧
      f.extendBlocks = g.extendBlocks ∧ f.options = g.options := by
  have version : (f.version.map Json.str).getD .null = (g.version.map Json.str).getD .null ↔
      f.version = g.version := by
    cases f.version <;> cases g.version <;> simp
  simp [json, version, List.map_inj_right]

/-- With the rest of a file its form tells the two numbers as well. -/
theorem eq_of_json (writable : f.Writable) (writable' : g.Writable) (valid : f.IsValid)
    (valid' : g.IsValid) (same : f.json = g.json) : f = g := by
  have typesBefore := typesBeforePackage_eq valid.typesBeforePackage writable
  have typesBefore' := typesBeforePackage_eq valid'.typesBeforePackage writable'
  have servicesBefore := servicesBeforePackage_eq valid.servicesBeforePackage writable
  have servicesBefore' := servicesBeforePackage_eq valid'.servicesBeforePackage writable'
  obtain ⟨⟨_, _, _, _, _, _, _, _, _, _⟩, _⟩ := f
  obtain ⟨⟨_, _, _, _, _, _, _, _, _, _⟩, _⟩ := g
  obtain ⟨rfl, rfl, rfl, rfl, rfl, rfl, rfl, rfl, rfl⟩ := json_eq_iff.mp same
  obtain rfl := typesBefore.trans typesBefore'.symm
  obtain rfl := servicesBefore.trans servicesBefore'.symm
  rfl

variable {config config' : DocConfig} {name name' : String} {text text' : List Char}

/-- Parsed files are the same exactly if the compact texts of their JSON forms are. -/
theorem jsonText_eq_iff_of_parse (parsed : parse config name text = .ok f)
    (parsed' : parse config' name' text' = .ok g) : f.json.text = g.json.text ↔ f = g := by
  have writable := writable_of_parse parsed
  have writable' := writable_of_parse parsed'
  rw [Json.text_inj (isFinite_json writable) (isFinite_json writable')]
  refine ⟨fun same => ?_, fun same => by rw [same]⟩
  exact eq_of_json writable writable' (isValid_of_built (built_of_parse parsed))
    (isValid_of_built (built_of_parse parsed')) same

/-- A file with a message in front of its package, whose declaration may also come first. -/
def halfFile (before : Nat) (fullName : String) : SchemaFile where
  package := "p"
  typesBeforePackage := before
  servicesBeforePackage := 0
  version := none
  imports := []
  publicImports := []
  types := [.message ⟨"A", fullName, "", [], [], [], [], [⟨"o", .float (.ofDecimal true 5 (-1))⟩]⟩]
  services := [⟨"S", "p.S", "", [], []⟩]
  extendBlocks := []
  options := []
  name := "half.proto"

theorem halfFile_jsonText_ne :
    parse {} "half.proto" "message A \x7b option o = -.5; \x7d package p; service S \x7b\x7d".toList =
        .ok (halfFile 1 "A") ∧
      parse {} "half.proto" "package p; message A \x7b option o = -0.5; \x7d service S \x7b\x7d".toList =
        .ok (halfFile 0 "p.A") ∧
      (halfFile 1 "A").json.text ≠ (halfFile 0 "p.A").json.text := by
  have late : parse {} "half.proto"
      "message A \x7b option o = -.5; \x7d package p; service S \x7b\x7d".toList =
        .ok (halfFile 1 "A") := by
    decide +kernel
  have first : parse {} "half.proto"
      "package p; message A \x7b option o = -0.5; \x7d service S \x7b\x7d".toList =
        .ok (halfFile 0 "p.A") := by
    decide +kernel
  refine ⟨late, first, fun same => ?_⟩
  exact absurd ((jsonText_eq_iff_of_parse late first).mp same) (by decide)

end SchemaFile

end ProtoSchema
