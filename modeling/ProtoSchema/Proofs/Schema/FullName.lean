import Mathlib.Data.List.Nodup
import ProtoSchema.Proofs.RoundTrip.Parsed
import ProtoSchema.Proofs.Schema.Walk

/-!
# Full names

Which types a full name can mean. Names are only checked to differ in each place by itself; as no
name of a declaration has a dot, the full names of types in one scope differ too, however deep the
types stand. A package has no part in the names of the types in front of it, so one of these may
have the full name of a type behind it.
-/

namespace ProtoSchema

open Reading

/-! ### Names in a scope -/

/-- The characters in front of a name in a scope. -/
def Reading.Scope.front (scope : Scope) : List Char :=
  scope.flatMap fun name => name.toList ++ ['.']

theorem Reading.Scope.toList_qualify (scope : Scope) (name : String) :
    (scope.qualify name).toList = scope.front ++ name.toList := by
  induction scope with
  | nil => simp [qualify, front]
  | cons outer scope ih =>
    -- No dot stands behind the last name, so it matters that there is one to come.
    obtain ⟨first, rest, same⟩ := List.exists_cons_of_ne_nil
      (List.append_ne_nil_of_right_ne_nil scope (List.cons_ne_nil name []))
    unfold qualify front at ih ⊢
    rw [List.cons_append, same, String.intercalate_cons_cons, ← same, List.flatMap_cons]
    simp [ih]

theorem Reading.Scope.front_append_single (scope : Scope) (name : String) :
    Scope.front (scope ++ [name]) = scope.front ++ (name.toList ++ ['.']) := by
  simp [front]

/-- What may follow the name of a type in the full name of a type in it. -/
def IsTail (text : List Char) : Prop := ∀ c ∈ text.head?, c = '.'

/-- A name without a dot ends where a tail begins. -/
theorem eq_of_append_tail {name name' text text' : List Char} (plain : '.' ∉ name)
    (plain' : '.' ∉ name') (tail : IsTail text) (tail' : IsTail text')
    (same : name ++ text = name' ++ text') : name = name' := by
  have upToDot {name text : List Char} (plain : '.' ∉ name) (tail : IsTail text) :
      (name ++ text).takeWhile (· ≠ '.') = name := by
    refine (takeWhile_append_of_head? (fun c member => ?_) fun c first => ?_).1
    · exact decide_eq_true fun dot => plain (dot ▸ member)
    · simpa using tail c first
  -- Both names are what stands in front of the first dot.
  rw [← upToDot plain tail, same, upToDot plain' tail']

namespace TypeDecl

variable {scope : Scope} {t u : TypeDecl}

theorem Writable.name (h : t.Writable scope) : IsDeclaredName t.name := by
  cases h with
  | message h => cases h with | intro name => exact name
  | enumType h => exact h.name

theorem Writable.fullName (h : t.Writable scope) :
    t.fullName.toList = scope.front ++ t.name.toList := by
  have same : t.fullName = scope.qualify t.name := by
    cases h with
    | message h => cases h with | intro _ fullName => exact fullName
    | enumType h => exact h.fullName
  rw [same, Scope.toList_qualify]

theorem Writable.nested (h : t.Writable scope) : ∀ u ∈ t.nested, u.Writable (scope ++ [t.name]) := by
  cases h with
  | message h => cases h with | intro _ _ _ _ nested => exact nested
  | enumType => exact List.forall_mem_nil _

theorem Writable.noDot (h : t.Writable scope) : '.' ∉ t.name.toList := by
  have plain := h.name.2
  simp only [Reader.isPlainName, Bool.and_eq_true, decide_eq_true_eq] at plain
  exact plain.1

/-- The full names of the types in a type continue its own full name. -/
theorem exists_tail_of_mem_preorder (h : t.Writable scope) (member : u ∈ t.preorder) :
    ∃ tail, IsTail tail ∧ u.fullName.toList = scope.front ++ (t.name.toList ++ tail) := by
  -- The induction goes inwards; each name on the way becomes a part of the tail.
  induction t using nested_induction generalizing scope with
  | step t ih =>
    rw [preorder_eq, preorderAll_eq_flatMap] at member
    rcases List.mem_cons.mp member with rfl | inside
    · exact ⟨[], by simp [IsTail], by rw [h.fullName, List.append_nil]⟩
    · obtain ⟨v, nested, inside⟩ := List.mem_flatMap.mp inside
      obtain ⟨tail, _, same⟩ := ih v nested (h.nested v nested) inside
      refine ⟨'.' :: (v.name.toList ++ tail), by simp [IsTail], ?_⟩
      rw [same, Scope.front_append_single]
      simp

/-- A type does not have the full name of a type in it. -/
theorem fullName_ne_of_mem_nested (h : t.Writable scope) {v : TypeDecl} (nested : v ∈ t.nested)
    (member : u ∈ v.preorder) : u.fullName ≠ t.fullName := by
  obtain ⟨tail, _, same⟩ := exists_tail_of_mem_preorder (h.nested v nested) member
  intro equal
  -- The name of an inner type is longer than that of the type around it.
  have sizes := congrArg List.length (same.symm.trans ((congrArg String.toList equal).trans h.fullName))
  rw [Scope.front_append_single] at sizes
  simp only [List.length_append, List.length_cons, List.length_nil] at sizes
  omega

/-- Types of different names have no full name in common, nor have the types in them. -/
theorem fullName_ne_of_name_ne {t' u' : TypeDecl} (h : t.Writable scope) (h' : t'.Writable scope)
    (differ : t.name ≠ t'.name) (member : u ∈ t.preorder) (member' : u' ∈ t'.preorder) :
    u.fullName ≠ u'.fullName := by
  obtain ⟨tail, isTail, same⟩ := exists_tail_of_mem_preorder h member
  obtain ⟨tail', isTail', same'⟩ := exists_tail_of_mem_preorder h' member'
  intro equal
  rw [equal, same', List.append_cancel_left_eq] at same
  -- Behind the scope, which both have in common, the names end at the first dot.
  exact differ (String.toList_inj.mp
    (eq_of_append_tail h'.noDot h.noDot isTail' isTail same).symm)

/-- Types in one scope, which differ in their names, differ in all full names in them if each of
them does by itself. -/
private theorem nodup_fullNames_of_each {ts : List TypeDecl} (writable : ∀ t ∈ ts, t.Writable scope)
    (names : (ts.map TypeDecl.name).Nodup)
    (each : ∀ t ∈ ts, (t.preorder.map TypeDecl.fullName).Nodup) :
    ((preorderAll ts).map TypeDecl.fullName).Nodup := by
  rw [preorderAll_eq_flatMap, List.map_flatMap, List.nodup_flatMap]
  refine ⟨each, ?_⟩
  have apart := List.pairwise_map.mp names
  refine apart.imp_of_mem fun {t t'} first second differ => ?_
  intro fullName inFirst inSecond
  obtain ⟨u, member, rfl⟩ := List.mem_map.mp inFirst
  obtain ⟨u', member', same⟩ := List.mem_map.mp inSecond
  exact fullName_ne_of_name_ne (writable t first) (writable t' second) differ member member'
    same.symm

theorem nestedNames_of_built (h : t.Built) : (t.nested.map TypeDecl.name).Nodup := by
  have valid := (isValid_of_built h).1
  cases t with
  | message m => exact Message.IsValid.nestedNames valid
  | enumType e => exact List.nodup_nil

theorem nodup_fullNames_preorder (built : t.Built) (writable : t.Writable scope) :
    (t.preorder.map TypeDecl.fullName).Nodup := by
  induction t using nested_induction generalizing scope with
  | step t ih =>
    have types := (isValid_of_built built).2
    have inside := nodup_fullNames_of_each writable.nested (nestedNames_of_built built)
      fun u nested => ih u nested (types u nested) (writable.nested u nested)
    rw [preorder_eq, List.map_cons, List.nodup_cons]
    refine ⟨?_, inside⟩
    -- What is left is that no type inside has the name of the type itself.
    intro own
    obtain ⟨u, member, same⟩ := List.mem_map.mp own
    rw [preorderAll_eq_flatMap] at member
    obtain ⟨v, nested, member⟩ := List.mem_flatMap.mp member
    exact fullName_ne_of_mem_nested writable nested member same

/-- The full names of all types in one scope differ if the names of the outermost do. -/
theorem nodup_fullNames {ts : List TypeDecl} (built : ∀ t ∈ ts, t.Built)
    (writable : ∀ t ∈ ts, t.Writable scope) (names : (ts.map TypeDecl.name).Nodup) :
    ((preorderAll ts).map TypeDecl.fullName).Nodup :=
  nodup_fullNames_of_each writable names fun t member =>
    nodup_fullNames_preorder (built t member) (writable t member)

end TypeDecl

/-! ### Full names in a file -/

namespace SchemaFile

variable {f : SchemaFile} {config : DocConfig} {name : String} {text : List Char}

/-- What holds of the first declarations and of the others holds of all of them. -/
theorem forall_mem_of_take_drop {α : Type} {P : α → Prop} {xs : List α} {n : Nat}
    (front : ∀ x ∈ xs.take n, P x) (back : ∀ x ∈ xs.drop n, P x) : ∀ x ∈ xs, P x := by
  rw [← List.take_append_drop n xs]
  exact List.forall_mem_append.mpr ⟨front, back⟩

/-- The types in front of the package declaration and all types in them. -/
def earlyTypes (f : SchemaFile) : List TypeDecl :=
  TypeDecl.preorderAll (f.types.take f.typesBeforePackage)

/-- The other types, which the package qualifies. -/
def lateTypes (f : SchemaFile) : List TypeDecl :=
  TypeDecl.preorderAll (f.types.drop f.typesBeforePackage)

theorem allTypes_eq_append (f : SchemaFile) : f.allTypes = f.earlyTypes ++ f.lateTypes := by
  simp only [allTypes_eq, earlyTypes, lateTypes, TypeDecl.preorderAll_eq_flatMap]
  rw [← List.flatMap_append, List.take_append_drop]

private theorem types_of_built (h : f.Built) :
    (∀ t ∈ f.types, t.Built) ∧ (f.types.map TypeDecl.name).Nodup := by
  have names := (List.nodup_append.mp (isValid_of_built h).names).1
  obtain ⟨_, body, types, _, _, made⟩ := h
  obtain ⟨_, rfl⟩ := make_eq_ok_iff.mp made
  exact ⟨types, names⟩

theorem nodup_fullNames_early (built : f.Built) (writable : f.Writable) :
    (f.earlyTypes.map TypeDecl.fullName).Nodup := by
  obtain ⟨types, names⟩ := types_of_built built
  refine TypeDecl.nodup_fullNames (fun t member => types t (List.mem_of_mem_take member))
    writable.typesBefore ?_
  exact names.sublist ((List.take_sublist _ _).map _)

theorem nodup_fullNames_late (built : f.Built) (writable : f.Writable) :
    (f.lateTypes.map TypeDecl.fullName).Nodup := by
  obtain ⟨types, names⟩ := types_of_built built
  refine TypeDecl.nodup_fullNames (fun t member => types t (List.mem_of_mem_drop member))
    writable.types ?_
  exact names.sublist ((List.drop_sublist _ _).map _)

/-- The full name of a type does not begin with a dot unless a package in front of it does. -/
theorem head?_fullName {scope : Scope} {ts : List TypeDecl} {t : TypeDecl}
    (writable : ∀ t ∈ ts, t.Writable scope) (noDot : scope.front.head? ≠ some '.')
    (member : t ∈ TypeDecl.preorderAll ts) : t.fullName.toList.head? ≠ some '.' := by
  rw [TypeDecl.preorderAll_eq_flatMap] at member
  obtain ⟨top, inTypes, member⟩ := List.mem_flatMap.mp member
  have h := writable top inTypes
  obtain ⟨tail, _, same⟩ := TypeDecl.exists_tail_of_mem_preorder h member
  rw [same]
  cases front : scope.front with
  | cons c cs => simpa [front] using noDot
  | nil =>
    -- Without a scope the full name begins with a name, which is neither empty nor has a dot.
    cases chars : top.name.toList with
    | nil => exact absurd (String.toList_eq_nil_iff.mp chars) h.name.1.ne_empty
    | cons c cs =>
      have first : c ≠ '.' := fun dot => h.noDot (by simp [chars, dot])
      simpa using first

/-- A type is found under its full name unless that is the name of a type in front of the package
declaration and the type is not. -/
theorem find?_fullName (built : f.Built) (writable : f.Writable) {t : TypeDecl}
    (member : t ∈ f.allTypes)
    (own : t ∈ f.earlyTypes ∨ ∀ u ∈ f.earlyTypes, u.fullName ≠ t.fullName) :
    f.allTypes.find? (fun u => u.fullName = t.fullName) = some t := by
  rw [allTypes_eq_append] at member ⊢
  rw [List.find?_append]
  -- The types in front of the package declaration come first in the search.
  rcases own with early | other
  · rw [find?_key_eq_some (nodup_fullNames_early built writable) early]
    rfl
  · have noEarly : f.earlyTypes.find? (fun u => u.fullName = t.fullName) = none :=
      List.find?_eq_none.mpr fun u early => by simpa using other u early
    have late : t ∈ f.lateTypes :=
      (List.mem_append.mp member).resolve_left fun early => other t early rfl
    rw [noEarly, Option.none_or]
    exact find?_key_eq_some (nodup_fullNames_late built writable) late

/-- In a parsed file full names differ among the types in front of the package declaration and among
the others, so that they all differ unless one type on each side has the same. Each type is found
under its full name, except one behind the package declaration of which one in front of it has the
full name; the leading dot may be left out where no package begins with a dot. -/
theorem fullNames_of_parse (parsed : parse config name text = .ok f) :
    (f.earlyTypes.map TypeDecl.fullName).Nodup ∧ (f.lateTypes.map TypeDecl.fullName).Nodup ∧
      ((f.allTypes.map TypeDecl.fullName).Nodup ↔
        ∀ t ∈ f.earlyTypes, ∀ u ∈ f.lateTypes, t.fullName ≠ u.fullName) ∧
      ∀ t ∈ f.allTypes, (t ∈ f.earlyTypes ∨ ∀ u ∈ f.earlyTypes, u.fullName ≠ t.fullName) →
        f.findType? ("." ++ t.fullName) = some t ∧
          (t ∈ f.earlyTypes ∨ f.package.toList.head? ≠ some '.' →
            f.findType? t.fullName = some t) := by
  have built := built_of_parse parsed
  have writable := writable_of_parse parsed
  have early := nodup_fullNames_early built writable
  have late := nodup_fullNames_late built writable
  refine ⟨early, late, ?_, fun t member own => ⟨?_, fun place => ?_⟩⟩
  · rw [allTypes_eq_append, List.map_append, List.nodup_append]
    simp [early, late]
  · rw [findType?, withoutLeadingDot_dot]
    exact find?_fullName built writable member own
  · have noDot : t.fullName.toList.head? ≠ some '.' := by
      have inEarly (h : t ∈ f.earlyTypes) : t.fullName.toList.head? ≠ some '.' :=
        head?_fullName writable.typesBefore (by simp [Scope.front]) h
      rcases place with h | noDot
      · exact inEarly h
      · rw [allTypes_eq_append] at member
        rcases List.mem_append.mp member with h | h
        · exact inEarly h
        · -- Without a package the scope is empty, and with one it begins with the package.
          refine head?_fullName writable.types ?_ h
          unfold packageScope
          split
          next => simp [Scope.front]
          next named =>
            obtain ⟨c, cs, same⟩ := List.exists_cons_of_ne_nil
              (mt String.toList_eq_nil_iff.mp named)
            rw [same] at noDot
            simpa [Scope.front, same] using noDot
    rw [findType?, withoutLeadingDot_eq_self noDot]
    exact find?_fullName built writable member own

/-- A file with types on both sides of its package declaration. -/
def layeredFile : SchemaFile where
  package := "p.q"
  typesBeforePackage := 1
  servicesBeforePackage := 0
  version := none
  imports := []
  publicImports := []
  types := [
    .message {
      name := "A"
      fullName := "A"
      doc := ""
      fields := []
      nested := [.enumType ⟨"B", "A.B", "", [⟨"X", 0, "", []⟩], []⟩]
      extendBlocks := []
      extensions := []
      options := [] },
    .message {
      name := "C"
      fullName := "p.q.C"
      doc := ""
      fields := []
      nested := [.enumType ⟨"B", "p.q.C.B", "", [⟨"X", 0, "", []⟩], []⟩]
      extendBlocks := []
      extensions := []
      options := [] }]
  services := []
  extendBlocks := []
  options := []
  name := "layered.proto"

theorem layeredFile_fullNames :
    parse {} "layered.proto" ("message A \x7b enum B \x7b X = 0; \x7d \x7d package p.q;" ++
      "message C \x7b enum B \x7b X = 0; \x7d \x7d").toList = .ok layeredFile ∧
    (layeredFile.allTypes.map TypeDecl.fullName).Nodup ∧
    ∀ t ∈ layeredFile.allTypes, layeredFile.findType? t.fullName = some t := by
  have parsed : parse {} "layered.proto"
      ("message A \x7b enum B \x7b X = 0; \x7d \x7d package p.q;" ++
        "message C \x7b enum B \x7b X = 0; \x7d \x7d").toList = .ok layeredFile := by
    decide +kernel
  obtain ⟨_, _, distinct, found⟩ := fullNames_of_parse parsed
  have apart : ∀ t ∈ layeredFile.earlyTypes, ∀ u ∈ layeredFile.lateTypes,
      t.fullName ≠ u.fullName := by decide
  refine ⟨parsed, distinct.mpr apart, fun t member => ?_⟩
  have own : t ∈ layeredFile.earlyTypes ∨
      ∀ u ∈ layeredFile.earlyTypes, u.fullName ≠ t.fullName := by
    rw [allTypes_eq_append] at member
    rcases List.mem_append.mp member with early | late
    · exact .inl early
    · exact .inr fun u early => apart u early t late
  exact (found t member own).2 (.inr (by decide))

/-- A file of which one type is named as the package would name another. -/
def collidingFile : SchemaFile where
  package := "A"
  typesBeforePackage := 1
  servicesBeforePackage := 0
  version := none
  imports := []
  publicImports := []
  types := [
    .message {
      name := "A"
      fullName := "A"
      doc := ""
      fields := []
      nested := [.message ⟨"B", "A.B", "", [], [], [], [], []⟩]
      extendBlocks := []
      extensions := []
      options := [] },
    .enumType ⟨"B", "A.B", "", [⟨"X", 0, "", []⟩], []⟩]
  services := []
  extendBlocks := []
  options := []
  name := "colliding.proto"

/-- Behind the package the name of a nested message is given to an enum, which is not found. -/
theorem collidingFile_fullNames :
    parse {} "colliding.proto"
      "message A \x7b message B \x7b\x7d \x7d package A; enum B \x7b X = 0; \x7d".toList =
        .ok collidingFile ∧
    ¬ (collidingFile.allTypes.map TypeDecl.fullName).Nodup ∧
    .enumType ⟨"B", "A.B", "", [⟨"X", 0, "", []⟩], []⟩ ∈ collidingFile.allTypes ∧
    collidingFile.findType? "A.B" = some (.message ⟨"B", "A.B", "", [], [], [], [], []⟩) := by
  refine ⟨by decide +kernel, ?_, ?_, ?_⟩
  · rw [allTypes_eq]
    decide
  · rw [allTypes_eq]
    decide
  · rw [findType?, allTypes_eq]
    decide

end SchemaFile

end ProtoSchema
