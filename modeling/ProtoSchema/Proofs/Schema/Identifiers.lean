import ProtoSchema.Proofs.Schema.FullName

/-!
# Names in a parsed file

Where names stand in a file and what they look like. A declaration is named by one simple name; a
reference may have several parts and a dot in front of them. `IsNamedBy` says of a declaration that
its own names are simple and that its references, wherever they stand in it, are of some kind.

The words for negative infinity and for a negative not-a-number are read as identifiers too. No
declaration can have such a name, but each place for a reference takes it.
-/

namespace ProtoSchema

open Reading

/-! ### Names -/

/-- A name of one part. -/
def IsSimpleName (name : String) : Prop :=
  ∃ first rest, name.toList = first :: rest ∧ (first.isAlpha = true ∨ first = '_') ∧
    ∀ c ∈ rest, c.isAlphanum = true ∨ c = '_'

/-- A name of some parts, which a dot may stand in front of. -/
def IsReference (name : String) : Prop :=
  ∃ dot first rest, name.toList = dot ++ first :: rest ∧ (dot = [] ∨ dot = ['.']) ∧
    (first.isAlpha = true ∨ first = '_') ∧ ∀ c ∈ rest, c.isAlphanum = true ∨ c = '_' ∨ c = '.'

private theorem isIdentStart_iff {c : Char} :
    isIdentStart c = true ↔ c.isAlpha = true ∨ c = '_' := by
  simp [isIdentStart]

private theorem isIdentChar_iff {c : Char} :
    isIdentChar c = true ↔ c.isAlphanum = true ∨ c = '_' ∨ c = '.' := by
  simp [isIdentChar, or_assoc]

/-- The identifiers without a sign are the references. -/
theorem isNameText_iff_isReference {name : String} :
    isNameText name.toList = true ↔ IsReference name := by
  unfold IsReference
  simp only [isNameText, Bool.and_eq_true, List.all_eq_true, ← isIdentStart_iff, ← isIdentChar_iff]
  constructor
  · rintro ⟨start, inside⟩
    generalize name.toList = text at start inside ⊢
    cases text with
    | nil => cases start
    | cons c text =>
      obtain ⟨_, behind⟩ := List.forall_mem_cons.mp inside
      simp only [startsName, Bool.or_eq_true, Bool.and_eq_true, decide_eq_true_eq] at start
      rcases start with letter | ⟨rfl, follows⟩
      · exact ⟨[], c, text, rfl, .inl rfl, letter, behind⟩
      · cases text with
        | nil => cases follows
        | cons d text =>
          exact ⟨['.'], d, text, rfl, .inr rfl, follows, (List.forall_mem_cons.mp behind).2⟩
  · rintro ⟨dot, first, rest, same, front, letter, inside⟩
    rw [same]
    have start := Token.isIdentChar_of_isIdentStart letter
    rcases front with rfl | rfl
    · exact ⟨by simp [startsName, letter], List.forall_mem_cons.mpr ⟨start, inside⟩⟩
    · refine ⟨by simp [startsName, Token.nextIs, letter], ?_⟩
      exact List.forall_mem_cons.mpr ⟨rfl, List.forall_mem_cons.mpr ⟨start, inside⟩⟩

theorem isIdent_iff {name : String} :
    IsIdent name ↔ IsReference name ∨ name = "-inf" ∨ name = "-nan" := by
  rw [IsIdent, isNameText_iff_isReference]

/-- An identifier without a dot and a sign is a simple name. -/
theorem IsDeclaredName.isSimpleName {name : String} (h : IsDeclaredName name) :
    IsSimpleName name := by
  obtain ⟨ident, plain⟩ := h
  simp only [Reader.isPlainName, Bool.and_eq_true, decide_eq_true_eq] at plain
  obtain ⟨noDot, noSign⟩ := plain
  rcases isIdent_iff.mp ident with ⟨dot, first, rest, same, front, letter, inside⟩ | rfl | rfl
  · rw [same] at noDot
    rcases front with rfl | rfl
    · refine ⟨first, rest, same, letter, fun c member => ?_⟩
      rcases inside c member with known | known | rfl
      · exact .inl known
      · exact .inr known
      · exact absurd (List.mem_cons_of_mem _ member) noDot
    · exact absurd List.mem_cons_self noDot
  · exact absurd rfl noSign
  · exact absurd rfl noSign

/-! ### Names of settings -/

section References

variable (ref : String → Prop)

/-- The name of an option: a reference, perhaps in parentheses, and a path of references that begin
with a dot. -/
def IsOptionNameBy (name : String) : Prop :=
  ∃ base path, (∀ part ∈ path, isSuffix part = true ∧ ref part) ∧ ref base ∧
    (name = base ++ String.join path ∨ name = "(" ++ base ++ ")" ++ String.join path)

/-- The name of an entry of a map: that of an option, or a reference in brackets. -/
def IsKeyBy (name : String) : Prop :=
  IsOptionNameBy ref name ∨ ∃ base, ref base ∧ name = "[" ++ base ++ "]"

/-- All names of entries in a value are made of references of a kind. What is a value itself may also
be a name with a sign. -/
inductive Value.IsNamedBy : Value → Prop
  | int {n : Int} : IsNamedBy (.int n)
  | float {x : Binary64} : IsNamedBy (.float x)
  | str {text : String} : IsNamedBy (.str text)
  | bytes {bytes : List UInt8} : IsNamedBy (.bytes bytes)
  | ident {name : String} :
      IsReference name ∨ name = "-inf" ∨ name = "-nan" → IsNamedBy (.ident name)
  | list {items : List Value} : (∀ item ∈ items, IsNamedBy item) → IsNamedBy (.list items)
  | map {entries : List Setting} :
      (∀ entry ∈ entries, IsKeyBy ref entry.name) → (∀ entry ∈ entries, IsNamedBy entry.value) →
      IsNamedBy (.map entries)

/-- An option is named by references of a kind, as is all in its value. -/
structure Setting.IsNamedBy (s : Setting) : Prop where
  name : IsOptionNameBy ref s.name
  value : s.value.IsNamedBy ref

/-! ### Names in declarations -/

/-- The name of the type of a field: a reference, or the signature of a map. -/
def IsTypeNameBy (typeName : String) : Prop :=
  ref typeName ∨
    ∃ key value, ref key ∧ ref value ∧ typeName = "map<" ++ key ++ ", " ++ value ++ ">"

structure Field.IsNamedBy (f : Field) : Prop where
  name : IsSimpleName f.name
  typeName : IsTypeNameBy ref f.typeName
  options : ∀ s ∈ f.options, s.IsNamedBy ref

structure ExtendBlock.IsNamedBy (e : ExtendBlock) : Prop where
  target : ref e.target
  fields : ∀ f ∈ e.fields, f.IsNamedBy ref

structure EnumValue.IsNamedBy (v : EnumValue) : Prop where
  name : IsSimpleName v.name
  options : ∀ s ∈ v.options, s.IsNamedBy ref

structure EnumType.IsNamedBy (e : EnumType) : Prop where
  name : IsSimpleName e.name
  values : ∀ v ∈ e.values, v.IsNamedBy ref
  options : ∀ s ∈ e.options, s.IsNamedBy ref

structure Method.IsNamedBy (m : Method) : Prop where
  name : IsSimpleName m.name
  request : ref m.request
  response : ref m.response
  options : ∀ s ∈ m.options, s.IsNamedBy ref

structure Service.IsNamedBy (s : Service) : Prop where
  name : IsSimpleName s.name
  methods : ∀ m ∈ s.methods, m.IsNamedBy ref
  options : ∀ o ∈ s.options, o.IsNamedBy ref

/-- The names in a message by itself; the types in it have theirs. -/
structure Message.IsNamedBy (m : Message) : Prop where
  name : IsSimpleName m.name
  fields : ∀ f ∈ m.fields, f.IsNamedBy ref
  extendBlocks : ∀ e ∈ m.extendBlocks, e.IsNamedBy ref
  options : ∀ s ∈ m.options, s.IsNamedBy ref

def TypeDecl.IsNamedBy : TypeDecl → Prop
  | .message m => m.IsNamedBy ref
  | .enumType e => e.IsNamedBy ref

/-- All declarations of a file have simple names, and what they refer to is of a kind. -/
structure SchemaFile.IsNamedBy (f : SchemaFile) : Prop where
  package : f.package = "" ∨ ref f.package
  types : ∀ t, f.Holds t → t.IsNamedBy ref
  services : ∀ s ∈ f.services, s.IsNamedBy ref
  extendBlocks : ∀ e ∈ f.extendBlocks, e.IsNamedBy ref
  options : ∀ s ∈ f.options, s.IsNamedBy ref

end References

/-! ### What can be written is named by identifiers -/

theorem IsPathText.exists_parts {path : String} (h : IsPathText path) :
    ∃ parts, (∀ part ∈ parts, isSuffix part = true ∧ IsIdent part) ∧
      path = String.join parts := by
  rcases h with rfl | ⟨name, suffix⟩
  · exact ⟨[], List.forall_mem_nil _, rfl⟩
  · exact ⟨[path], List.forall_mem_singleton.mpr ⟨suffix, .inl name⟩, by simp⟩

theorem IsOptionText.isOptionNameBy {name : String} (h : IsOptionText name) :
    IsOptionNameBy IsIdent name := by
  cases h with
  | plain base path =>
    obtain ⟨parts, references, rfl⟩ := path.exists_parts
    exact ⟨_, parts, references, base, .inl rfl⟩
  | extension inner path =>
    obtain ⟨parts, references, rfl⟩ := path.exists_parts
    exact ⟨_, parts, references, inner, .inr rfl⟩

theorem IsKeyText.isKeyBy {name : String} (h : IsKeyText name) : IsKeyBy IsIdent name := by
  cases h with
  | option text => exact .inl text.isOptionNameBy
  | extension inner => exact .inr ⟨_, inner, rfl⟩

mutual

theorem Value.Writable.isNamedBy (v : Value) (h : v.Writable) : v.IsNamedBy IsIdent := by
  match v with
  | .int _ => exact .int
  | .float _ => exact .float
  | .str _ => exact .str
  | .bytes _ => exact .bytes
  | .ident _ => exact .ident (isIdent_iff.mp h)
  | .list items => exact .list (Value.AllWritable.isNamedBy items h)
  | .map entries =>
    have both := Setting.AllWritable.isNamedBy entries h
    exact .map (fun s member => (both s member).1) fun s member => (both s member).2
termination_by structural v

theorem Value.AllWritable.isNamedBy (vs : List Value) (h : Value.AllWritable vs) :
    ∀ v ∈ vs, v.IsNamedBy IsIdent := by
  match vs with
  | [] => exact List.forall_mem_nil _
  | v :: vs =>
    exact List.forall_mem_cons.mpr
      ⟨Value.Writable.isNamedBy v h.1, Value.AllWritable.isNamedBy vs h.2⟩
termination_by structural vs

theorem Setting.IsWritableEntry.isNamedBy (s : Setting) (h : s.IsWritableEntry) :
    IsKeyBy IsIdent s.name ∧ s.value.IsNamedBy IsIdent := by
  match s with
  | ⟨_, value⟩ => exact ⟨h.1.isKeyBy, Value.Writable.isNamedBy value h.2⟩
termination_by structural s

theorem Setting.AllWritable.isNamedBy (ss : List Setting) (h : Setting.AllWritable ss) :
    ∀ s ∈ ss, IsKeyBy IsIdent s.name ∧ s.value.IsNamedBy IsIdent := by
  match ss with
  | [] => exact List.forall_mem_nil _
  | s :: ss =>
    exact List.forall_mem_cons.mpr
      ⟨Setting.IsWritableEntry.isNamedBy s h.1, Setting.AllWritable.isNamedBy ss h.2⟩
termination_by structural ss

end

theorem Setting.Writable.isNamedBy {s : Setting} (h : s.Writable) : s.IsNamedBy IsIdent :=
  ⟨h.name.isOptionNameBy, Value.Writable.isNamedBy s.value h.value⟩

theorem Field.Writable.isNamedBy {f : Field} (h : f.Writable) : f.IsNamedBy IsIdent :=
  ⟨h.name.isSimpleName, .inl h.typeName, fun s member => (h.options s member).isNamedBy⟩

theorem Field.IsWritableMap.isNamedBy {f : Field} (h : f.IsWritableMap) : f.IsNamedBy IsIdent :=
  ⟨h.name.isSimpleName, .inr h.typeName, fun s member => (h.options s member).isNamedBy⟩

theorem ExtendBlock.Writable.isNamedBy {e : ExtendBlock} (h : e.Writable) : e.IsNamedBy IsIdent :=
  ⟨h.target, fun f member => (h.fields f member).isNamedBy⟩

theorem EnumValue.Writable.isNamedBy {v : EnumValue} (h : v.Writable) : v.IsNamedBy IsIdent :=
  ⟨h.name.isSimpleName, fun s member => (h.options s member).isNamedBy⟩

theorem Method.Writable.isNamedBy {m : Method} (h : m.Writable) : m.IsNamedBy IsIdent :=
  ⟨h.name.isSimpleName, h.request, h.response, fun s member => (h.options s member).isNamedBy⟩

variable {scope : Scope}

theorem EnumType.Writable.isNamedBy {e : EnumType} (h : e.Writable scope) : e.IsNamedBy IsIdent :=
  ⟨h.name.isSimpleName, fun v member => (h.values v member).isNamedBy,
    fun s member => (h.options s member).isNamedBy⟩

theorem Service.Writable.isNamedBy {s : Service} (h : s.Writable scope) : s.IsNamedBy IsIdent :=
  ⟨h.name.isSimpleName, fun m member => (h.methods m member).isNamedBy,
    fun o member => (h.options o member).isNamedBy⟩

theorem TypeDecl.Writable.isNamedBy {t : TypeDecl} (h : t.Writable scope) :
    t.IsNamedBy IsIdent := by
  cases h with
  | enumType h => exact EnumType.Writable.isNamedBy h
  | message h =>
    cases h with
    | intro name _ _ fields _ extendBlocks _ options =>
      exact ⟨name.isSimpleName,
        fun f member => (fields f member).elim Field.Writable.isNamedBy Field.IsWritableMap.isNamedBy,
        fun e member => (extendBlocks e member).isNamedBy,
        fun s member => (options s member).isNamedBy⟩

namespace SchemaFile

variable {f : SchemaFile} {config : DocConfig} {name : String} {text : List Char}

/-- Each type of a file that can be written can be written in some scope. -/
theorem Writable.exists_scope (h : f.Writable) {t : TypeDecl} (held : f.Holds t) :
    ∃ scope, t.Writable scope := by
  induction held with
  | top member =>
    exact forall_mem_of_take_drop (P := fun t => ∃ scope, TypeDecl.Writable scope t)
      (fun t member => ⟨_, h.typesBefore t member⟩) (fun t member => ⟨_, h.types t member⟩) _ member
  | inside _ member ih =>
    obtain ⟨scope, outer⟩ := ih
    exact ⟨_, outer.nested _ member⟩

theorem Writable.isNamedBy (h : f.Writable) : f.IsNamedBy IsIdent where
  package := h.package.symm.imp (fun absent => absent.1) id
  types _ held := (h.exists_scope held).choose_spec.isNamedBy
  services := forall_mem_of_take_drop (fun s member => (h.servicesBefore s member).isNamedBy)
    fun s member => (h.services s member).isNamedBy
  extendBlocks e member := (h.extendBlocks e member).isNamedBy
  options s member := (h.options s member).isNamedBy

/-- In a parsed file all declarations have simple names. What they refer to are references, but for
the two names with a sign. -/
theorem isNamedBy_of_parse (parsed : parse config name text = .ok f) :
    f.IsNamedBy fun name => IsReference name ∨ name = "-inf" ∨ name = "-nan" := by
  have named := (writable_of_parse parsed).isNamedBy
  have kind : IsIdent = fun name => IsReference name ∨ name = "-inf" ∨ name = "-nan" :=
    funext fun _ => propext isIdent_iff
  rwa [kind] at named

/-- A file with names in most places where they can stand. -/
def addressedFile : SchemaFile where
  package := "a.b"
  typesBeforePackage := 0
  servicesBeforePackage := 0
  version := none
  imports := []
  publicImports := []
  types := [
    .message {
      name := "_M"
      fullName := "a.b._M"
      doc := ""
      fields := [
        ⟨.repeated, "map<int32, .a.N>", "m", 1, "", []⟩,
        ⟨.optional, "N.K1", "n", 2, "", [⟨"(o.p).q.r", .map [⟨"[s]", .ident "-inf"⟩]⟩]⟩]
      nested := []
      extendBlocks := []
      extensions := []
      options := [] }]
  services := [⟨"S", "a.b.S", "", [], [⟨"R", "", ".a.N", "N", []⟩]⟩]
  extendBlocks := [⟨".a.N", "", []⟩]
  options := []
  name := "addressed.proto"

theorem addressedFile_isNamedBy :
    parse {} "addressed.proto" ("package a.b; message _M \x7b map<int32, .a.N> m = 1;" ++
      "optional N.K1 n = 2 [(o.p) .q .r = \x7b [s]: -inf \x7d]; \x7d" ++
      "service S \x7b rpc R(.a.N) returns (N); \x7d extend .a.N \x7b\x7d").toList =
        .ok addressedFile ∧
    addressedFile.IsNamedBy fun name => IsReference name ∨ name = "-inf" ∨ name = "-nan" := by
  have parsed : parse {} "addressed.proto"
      ("package a.b; message _M \x7b map<int32, .a.N> m = 1;" ++
        "optional N.K1 n = 2 [(o.p) .q .r = \x7b [s]: -inf \x7d]; \x7d" ++
        "service S \x7b rpc R(.a.N) returns (N); \x7d extend .a.N \x7b\x7d").toList =
          .ok addressedFile := by
    decide +kernel
  exact ⟨parsed, isNamedBy_of_parse parsed⟩

/-- A file whose package is negative infinity. -/
def signedPackageFile : SchemaFile where
  package := "-inf"
  typesBeforePackage := 0
  servicesBeforePackage := 0
  version := none
  imports := []
  publicImports := []
  types := []
  services := []
  extendBlocks := []
  options := []
  name := "signed.proto"

/-- Names with a sign are read where only a reference makes sense. -/
theorem signedPackageFile_not_isNamedBy :
    parse {} "signed.proto" "package -inf;".toList = .ok signedPackageFile ∧
      ¬ signedPackageFile.IsNamedBy IsReference := by
  refine ⟨by decide +kernel, fun named => ?_⟩
  rcases named.package with absent | reference
  · exact absurd absent (by decide)
  · exact absurd (isNameText_iff_isReference.mpr reference) (by decide)

end SchemaFile

end ProtoSchema
