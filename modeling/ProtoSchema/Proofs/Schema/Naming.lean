import ProtoSchema.Proofs.Schema.FullName

/-!
# How types and services are named

In a parsed file the full name of a type is what its place says: the package, if its declaration
stands in front of the outermost type around this one, then the names of the messages around it, the
outermost first, and its own name. `fullName_eq_of_reaches` carries the scope inwards, one message
after the other; `qualifiedNames_of_parse` adds what the file says about the package.
-/

namespace ProtoSchema

open Reading Grammar

/-! ### Types inside types -/

/-- From a type one gets to another one inside it, going through messages of these names, the
outermost first. -/
inductive TypeDecl.Reaches : TypeDecl → List String → TypeDecl → Prop
  | here {t : TypeDecl} : Reaches t [] t
  | inside {t u v : TypeDecl} {names : List String} :
      u ∈ t.nested → Reaches u names v → Reaches t (t.name :: names) v

namespace TypeDecl

variable {scope : Scope} {t u : TypeDecl} {names : List String}

theorem Writable.fullName_eq_qualify (h : t.Writable scope) : t.fullName = scope.qualify t.name := by
  cases h with
  | message h => cases h with | intro _ fullName => exact fullName
  | enumType h => exact h.fullName

/-- A type is named by the scope of the type that it is reached from, the names on the way and its
own. -/
theorem fullName_eq_of_reaches (h : t.Writable scope) (reached : t.Reaches names u) :
    u.fullName = ".".intercalate (scope ++ names ++ [u.name]) := by
  -- Each message on the way adds its name to the scope of what stands in it.
  induction reached generalizing scope with
  | here =>
    rw [List.append_nil]
    exact h.fullName_eq_qualify
  | @inside t u v names member _ ih =>
    have inner := ih (h.nested u member)
    rw [List.append_assoc scope [t.name] names] at inner
    exact inner

/-- Every type that a walk through a type finds is reached from it. -/
theorem exists_reaches_of_mem_preorder (member : u ∈ t.preorder) : ∃ names, t.Reaches names u := by
  induction t using nested_induction with
  | step t ih =>
    rw [preorder_eq, preorderAll_eq_flatMap] at member
    rcases List.mem_cons.mp member with rfl | inside
    · exact ⟨[], .here⟩
    · obtain ⟨v, nested, inside⟩ := List.mem_flatMap.mp inside
      obtain ⟨names, reached⟩ := ih v nested inside
      exact ⟨t.name :: names, .inside nested reached⟩

end TypeDecl

/-! ### Declarations in a file -/

/-- What qualifies the declaration with a certain number in a file: the package, if there is one and
no more than so many declarations stand in front of it. -/
def packageNames (package : String) (before index : Nat) : List String :=
  if package ≠ "" ∧ before ≤ index then [package] else []

theorem packageNames_of_lt {package : String} {before index : Nat} (h : index < before) :
    packageNames package before index = [] :=
  if_neg fun both => Nat.not_le.mpr h both.2

theorem packageNames_of_le {package : String} {before index : Nat} (h : before ≤ index) :
    packageNames package before index = packageScope package := by
  unfold packageNames packageScope
  by_cases absent : package = ""
  · simp [absent]
  · simp [absent, h]

/-- What holds of the declarations in front of the package in no scope and of the others in that of
the package holds of each of them in the scope that its number says. -/
theorem holds_in_packageNames {α : Type} {P : Scope → α → Prop} {xs : List α} {package : String}
    {before index : Nat} {x : α} (early : ∀ x ∈ xs.take before, P [] x)
    (late : ∀ x ∈ xs.drop before, P (packageScope package) x) (at_ : xs[index]? = some x) :
    P (packageNames package before index) x := by
  -- The number says on which side of the package the declaration stands.
  rcases Nat.lt_or_ge index before with front | back
  · rw [packageNames_of_lt front]
    apply early
    apply List.mem_of_getElem?
    rw [List.getElem?_take_of_lt front, at_]
  · rw [packageNames_of_le back]
    apply late
    apply List.mem_of_getElem? (i := index - before)
    rw [List.getElem?_drop, Nat.add_sub_cancel' back, at_]

namespace SchemaFile

variable {f : SchemaFile} {config : DocConfig} {name : String} {text : List Char}

/-- No more declarations of a kind stand in front of the package than in the file. -/
theorem countBefore_le {α : Type} (t : FileText) (pick : FileStatement → Option α) :
    t.countBefore pick ≤ (t.statements.filterMap pick).length := by
  unfold FileText.countBefore FileText.statements
  split
  · rw [List.filterMap_append, List.length_append]
    omega
  · exact Nat.zero_le _

theorem exists_reaches_of_mem_allTypes {u : TypeDecl} (member : u ∈ f.allTypes) :
    ∃ (i : Nat) (top : TypeDecl) (names : List String),
      f.types[i]? = some top ∧ top.Reaches names u := by
  rw [allTypes_eq, TypeDecl.preorderAll_eq_flatMap] at member
  obtain ⟨top, inTypes, inside⟩ := List.mem_flatMap.mp member
  obtain ⟨i, at_⟩ := List.mem_iff_getElem?.mp inTypes
  obtain ⟨names, reached⟩ := TypeDecl.exists_reaches_of_mem_preorder inside
  exact ⟨i, top, names, at_, reached⟩

/-- A parsed file is what the words of its text say, and its types and services are named by their
places. The number `i` of a type is its place among the types that stand outermost, from which all
types of the file are reached; how many stand in front of the package is counted in the text. -/
theorem qualifiedNames_of_parse (parsed : parse config name text = .ok f) :
    ∃ words t, (TokenStream.ofText config text).words? = some words ∧ IsFile words t ∧
      f.types = t.statements.filterMap FileStatement.type? ∧
      f.services = t.statements.filterMap FileStatement.service? ∧
      f.package = (t.package.map (·.1)).getD "" ∧
      (∀ u ∈ f.allTypes, ∃ (i : Nat) (top : TypeDecl) (names : List String),
        f.types[i]? = some top ∧ top.Reaches names u) ∧
      (∀ (i : Nat) (top : TypeDecl) (names : List String) (u : TypeDecl),
        f.types[i]? = some top → top.Reaches names u →
        u.fullName = ".".intercalate
          (packageNames f.package (t.countBefore FileStatement.type?) i ++ names ++ [u.name])) ∧
      ∀ (j : Nat) (s : Service), f.services[j]? = some s →
        s.fullName = ".".intercalate
          (packageNames f.package (t.countBefore FileStatement.service?) j ++ [s.name]) := by
  obtain ⟨words, t, whole, phrase, made, _⟩ :=
    (ofStream_file_iff (TokenStream.ofText_isProper config text)
      fun _ => TokenStream.ne_eof_of_mem_ofText).mp parsed
  have writable := writable_of_parse parsed
  obtain ⟨_, rfl⟩ := make_eq_ok_iff.mp made
  -- A file counts no more declarations in front of its package than it has, and no more are in the
  -- text.
  have types : min t.body.typesBeforePackage t.body.types.length =
      t.countBefore FileStatement.type? := Nat.min_eq_left (countBefore_le t FileStatement.type?)
  have services : min t.body.servicesBeforePackage t.body.services.length =
      t.countBefore FileStatement.service? :=
    Nat.min_eq_left (countBefore_le t FileStatement.service?)
  refine ⟨words, t, whole, phrase, rfl, rfl, rfl, ?_, ?_, ?_⟩
  · intro u member
    exact exists_reaches_of_mem_allTypes member
  · intro i top names u at_ reached
    have inScope := holds_in_packageNames writable.typesBefore writable.types at_
    rw [types] at inScope
    exact TypeDecl.fullName_eq_of_reaches inScope reached
  · intro j s at_
    have inScope := holds_in_packageNames writable.servicesBefore writable.services at_
    rw [services] at inScope
    exact inScope.fullName

/-- A file with types inside types and services on both sides of its package declaration. -/
def surroundingFile : SchemaFile where
  package := "p.q"
  typesBeforePackage := 1
  servicesBeforePackage := 1
  version := none
  imports := []
  publicImports := []
  types := [
    .message ⟨"A", "A", "", [], [.enumType ⟨"B", "A.B", "", [⟨"X", 0, "", []⟩], []⟩], [], [], []⟩,
    .message {
      name := "C"
      fullName := "p.q.C"
      doc := ""
      fields := []
      nested := [
        .message ⟨"D", "p.q.C.D", "", [], [.message ⟨"E", "p.q.C.D.E", "", [], [], [], [], []⟩],
          [], [], []⟩,
        .message ⟨"E", "p.q.C.E", "", [], [], [], [], []⟩]
      extendBlocks := []
      extensions := []
      options := [] }]
  services := [⟨"S", "S", "", [], []⟩, ⟨"T", "p.q.T", "", [], []⟩]
  extendBlocks := []
  options := []
  name := "surrounding.proto"

theorem surroundingFile_qualifiedNames :
    parse {} "surrounding.proto" ("message A \x7b enum B \x7b X = 0; \x7d \x7d service S \x7b\x7d " ++
      "package p.q; message C \x7b message D \x7b message E \x7b\x7d \x7d message E \x7b\x7d \x7d " ++
      "service T \x7b\x7d").toList = .ok surroundingFile ∧
    ∃ before, ∀ u ∈ surroundingFile.allTypes,
      ∃ (i : Nat) (top : TypeDecl) (names : List String),
        surroundingFile.types[i]? = some top ∧ top.Reaches names u ∧
        u.fullName = ".".intercalate (packageNames "p.q" before i ++ names ++ [u.name]) := by
  have parsed : parse {} "surrounding.proto"
      ("message A \x7b enum B \x7b X = 0; \x7d \x7d service S \x7b\x7d " ++
        "package p.q; message C \x7b message D \x7b message E \x7b\x7d \x7d message E \x7b\x7d \x7d " ++
        "service T \x7b\x7d").toList = .ok surroundingFile := by
    decide +kernel
  obtain ⟨_, t, _, _, _, _, _, reached, named, _⟩ := qualifiedNames_of_parse parsed
  refine ⟨parsed, t.countBefore FileStatement.type?, ?_⟩
  intro u member
  obtain ⟨i, top, names, at_, path⟩ := reached u member
  exact ⟨i, top, names, at_, path, named i top names u at_ path⟩

end SchemaFile

end ProtoSchema
