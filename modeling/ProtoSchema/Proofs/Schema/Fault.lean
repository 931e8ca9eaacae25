import Mathlib.Data.List.Induction
import Mathlib.Data.List.Nodup
import ProtoSchema.Proofs.Schema.Validity

/-!
# Which fault is reported

The parts of a declaration may be at odds in several places at once, and one fault is reported.
Parts are looked at in order, so it is at the part with which they cease to agree: `BreaksAt` says
which one that is, and for each kind of declaration `FirstFault` says what is reported of it. The
checks are then decided on both sides: what passes is made of the parts as they are, and what does
not pass is reported with its first fault.
-/

namespace ProtoSchema

variable {α β : Type}

/-! ### Where a list ceases to be good -/

/-- The elements `before` begin a list and are good, and with `x` behind them they are not. -/
structure BreaksAt (Good : List α → Prop) (xs before : List α) (x : α) : Prop where
  begins : before ++ [x] <+: xs
  good : Good before
  breaks : ¬ Good (before ++ [x])

theorem firstFault?_append (fault? : List α → α → Option β) (earlier xs ys : List α) :
    firstFault? fault? earlier (xs ++ ys) =
      (firstFault? fault? earlier xs).or (firstFault? fault? (earlier ++ xs) ys) := by
  induction xs generalizing earlier with
  | nil => simp [firstFault?]
  | cons x xs ih =>
    rw [List.cons_append, firstFault?, firstFault?]
    cases fault? earlier x with
    | some fault => rfl
    | none =>
      have later := ih (earlier ++ [x])
      rwa [List.append_assoc earlier [x] xs] at later

section FirstFault

variable {fault? : List α → α → Option β} {Good : List α → Prop} {earlier xs before : List α}
  {x : α}
  (passes : ∀ xs, firstFault? fault? earlier xs = none ↔ Good xs)

include passes

/-- Behind good elements only the last one can be at fault. -/
theorem firstFault?_concat (good : Good before) :
    firstFault? fault? earlier (before ++ [x]) = fault? (earlier ++ before) x := by
  rw [firstFault?_append, (passes before).mpr good, Option.none_or, firstFault?]
  cases fault? (earlier ++ before) x <;> rfl

theorem BreaksAt.exists_fault (h : BreaksAt Good xs before x) :
    ∃ fault, fault? (earlier ++ before) x = some fault := by
  rw [← firstFault?_concat passes h.good, ← Option.ne_none_iff_exists']
  exact fun none => h.breaks ((passes _).mp none)

/-- The fault of a list is that of the element with which it ceases to be good. -/
theorem firstFault?_eq_some_iff {fault : β} :
    firstFault? fault? earlier xs = some fault ↔
      ∃ before x, BreaksAt Good xs before x ∧ fault? (earlier ++ before) x = some fault := by
  constructor
  · -- The induction is from the end: what is found in front stays the first fault.
    induction xs using List.reverseRecOn with
    | nil => exact nofun
    | append_singleton xs x ih =>
      intro found
      cases front : firstFault? fault? earlier xs with
      | some fault' =>
        rw [firstFault?_append, front, Option.some_or] at found
        obtain ⟨before, y, breaks, found⟩ := ih (front.trans found)
        have begins := breaks.begins.trans (xs.prefix_append [x])
        exact ⟨before, y, { breaks with begins }, found⟩
      | none =>
        have good := (passes xs).mp front
        refine ⟨xs, x, ⟨List.prefix_rfl, good, fun fine => ?_⟩, ?_⟩
        · cases ((passes _).mpr fine).symm.trans found
        · rwa [← firstFault?_concat passes good]
  · rintro ⟨before, x, ⟨⟨after, rfl⟩, good, _⟩, found⟩
    rw [firstFault?_append, firstFault?_concat passes good, found, Option.some_or]

end FirstFault

/-- Good in this sense are names that differ from each other and from those taken. -/
theorem firstRepeat?_eq_some_iff {taken names : List String} {name : String} :
    firstRepeat? taken names = some name ↔
      ∃ before, BreaksAt (fun names => names.Nodup ∧ ∀ name ∈ names, name ∉ taken) names before
        name := by
  have passes (names : List String) :
      firstRepeat? taken names = none ↔ names.Nodup ∧ ∀ name ∈ names, name ∉ taken :=
    firstRepeat?_eq_none_iff
  rw [firstRepeat?, firstFault?_eq_some_iff passes]
  constructor
  · rintro ⟨before, x, breaks, repeated⟩
    split at repeated
    · cases repeated
      exact ⟨before, breaks⟩
    · cases repeated
  · rintro ⟨before, breaks⟩
    obtain ⟨fault, found⟩ := breaks.exists_fault passes
    refine ⟨before, name, breaks, ?_⟩
    split at found
    next repeated => exact if_pos repeated
    next => cases found

/-- What is good about the keys of elements is so about the elements. -/
theorem exists_breaksAt_map_iff {Good : List β → Prop} {key : α → β} {xs : List α} {k : β} :
    (∃ before, BreaksAt Good (xs.map key) before k) ↔
      ∃ before x, BreaksAt (fun xs => Good (xs.map key)) xs before x ∧ key x = k := by
  constructor
  · rintro ⟨keys, begins, good, breaks⟩
    -- Where keys begin the keys of a list, the elements that have them begin the list.
    obtain ⟨front, inside, same⟩ := List.prefix_map_iff.mp begins
    obtain ⟨before, last, rfl, rfl, single⟩ := List.map_eq_append_iff.mp same.symm
    obtain ⟨x, rfl, rfl⟩ := List.map_eq_singleton_iff.mp single
    exact ⟨before, x, ⟨inside, good, by simpa using breaks⟩, rfl⟩
  · rintro ⟨before, x, ⟨begins, good, breaks⟩, rfl⟩
    exact ⟨before.map key, by simpa using begins.map key, good, by simpa using breaks⟩

/-- Where no two elements have a property, the first one that has it is the only one. -/
theorem find?_eq_some_iff_filter {p : α → Bool} {xs : List α} {x : α}
    (apart : xs.Pairwise fun y z => ¬ (p y = true ∧ p z = true)) :
    xs.find? p = some x ↔ xs.filter p = [x] := by
  induction xs with
  | nil => simp
  | cons y ys ih =>
    obtain ⟨first, rest⟩ := List.pairwise_cons.mp apart
    cases found : p y with
    | false => simpa [found] using ih rest
    | true =>
      have none : ys.filter p = [] :=
        List.filter_eq_nil_iff.mpr fun z member holds => first z member ⟨found, holds⟩
      simp [found, none]

/-- Where keys differ, an element that is found by its key is the only one with it. -/
theorem find?_key_eq_some_iff_filter [DecidableEq β] {key : α → β} {xs : List α} {x : α} {k : β}
    (distinct : (xs.map key).Nodup) :
    xs.find? (fun y => key y = k) = some x ↔ xs.filter (fun y => key y = k) = [x] := by
  refine find?_eq_some_iff_filter ((List.pairwise_map.mp distinct).imp fun differ both => ?_)
  simp only [decide_eq_true_eq] at both
  exact differ (both.1.trans both.2.symm)

theorem find?_key_eq_none_iff [DecidableEq β] {key : α → β} {xs : List α} {k : β} :
    xs.find? (fun y => key y = k) = none ↔ k ∉ xs.map key := by
  simp [List.find?_eq_none]

/-! ### Extension ranges -/

namespace ExtensionRange

/-- No two of these ranges have a tag in common. -/
def AreDisjoint (ranges : List ExtensionRange) : Prop :=
  ranges.Pairwise fun r s => r.last < s.first ∨ s.last < r.first

theorem contains_iff {r : ExtensionRange} {tag : Nat} :
    r.contains tag = true ↔ r.first ≤ tag ∧ tag ≤ r.last := by
  simp [contains]

theorem firstFault?_eq_none_iff_areDisjoint {ranges : List ExtensionRange} :
    firstFault? fault? [] ranges = none ↔ AreDisjoint ranges := by
  rw [firstFault?_ranges_iff, AreDisjoint]
  have same (r s : ExtensionRange) :
      r.overlaps s = false ↔ r.last < s.first ∨ s.last < r.first := by
    simp only [overlaps, Bool.and_eq_false_iff, decide_eq_false_iff_not]
    omega
  simp only [same]

theorem firstFault?_eq_some_iff_breaksAt {ranges : List ExtensionRange} {v : Violation} :
    firstFault? fault? [] ranges = some v ↔
      ∃ before r, BreaksAt AreDisjoint ranges before r ∧
        v = .invalidExtensionRange r.first r.last := by
  have passes (ranges : List ExtensionRange) :
      firstFault? fault? [] ranges = none ↔ AreDisjoint ranges :=
    firstFault?_eq_none_iff_areDisjoint
  -- There is one kind of fault only.
  have kind {before : List ExtensionRange} {r : ExtensionRange} {v : Violation}
      (found : fault? before r = some v) : v = .invalidExtensionRange r.first r.last := by
    unfold fault? at found
    split at found <;> cases found
    rfl
  rw [firstFault?_eq_some_iff passes]
  constructor
  · rintro ⟨before, r, breaks, found⟩
    exact ⟨before, r, breaks, kind found⟩
  · rintro ⟨before, r, breaks, rfl⟩
    obtain ⟨fault, found⟩ := breaks.exists_fault passes
    exact ⟨before, r, breaks, found.trans (congrArg some (kind found))⟩

end ExtensionRange

/-! ### Fields -/

namespace Field

/-- The fields in a place with these extension ranges differ in tags and in names, and no tag of a
field is one for extensions. -/
structure AreDistinct (ranges : List ExtensionRange) (fields : List Field) : Prop where
  tags : (fields.map (·.tag)).Nodup
  names : (fields.map (·.name)).Nodup
  apart : ∀ f ∈ fields, ∀ r ∈ ranges, ¬ (r.first ≤ f.tag ∧ f.tag ≤ r.last)

/-- The fault that is reported of fields in a scope with these extension ranges. It is one of the
first field that is at odds with a field in front of it or with a range: its tag is that of one
field in front, or else its name is, or else its tag is in one of the ranges. -/
inductive FirstFault (scope : String) (ranges : List ExtensionRange) (fields : List Field) :
    Violation → Prop
  | tag {before : List Field} {f first : Field} :
      BreaksAt (AreDistinct ranges) fields before f →
      before.filter (fun g => g.tag = f.tag) = [first] →
        FirstFault scope ranges fields (.duplicateTag scope f.tag first.name f.name)
  | name {before : List Field} {f : Field} :
      BreaksAt (AreDistinct ranges) fields before f →
      f.tag ∉ before.map (·.tag) → f.name ∈ before.map (·.name) →
        FirstFault scope ranges fields (.duplicateName scope f.name)
  | range {before : List Field} {f : Field} {r : ExtensionRange} :
      BreaksAt (AreDistinct ranges) fields before f →
      f.tag ∉ before.map (·.tag) → f.name ∉ before.map (·.name) →
      ranges.filter (fun s => s.contains f.tag) = [r] →
        FirstFault scope ranges fields (.tagInExtensionRange f.name f.tag r.first r.last)

theorem firstFault?_eq_none_iff_areDistinct {scope : String} {ranges : List ExtensionRange}
    {fields : List Field} :
    firstFault? (fault? scope ranges) [] fields = none ↔ AreDistinct ranges fields := by
  have outside (r : ExtensionRange) (f : Field) :
      r.contains f.tag = false ↔ ¬ (r.first ≤ f.tag ∧ f.tag ≤ r.last) := by
    rw [← ExtensionRange.contains_iff, Bool.not_eq_true]
  rw [firstFault?_fields_iff, pairwise_agrees_iff]
  simp only [outside]
  constructor
  · rintro ⟨⟨tags, names⟩, apart⟩
    exact ⟨tags, names, apart⟩
  · rintro ⟨tags, names, apart⟩
    exact ⟨⟨tags, names⟩, apart⟩

/-- What is wrong with a field behind fields that agree: its tag comes first, then its name. -/
theorem fault?_eq_some_iff {scope : String} {ranges : List ExtensionRange} {before : List Field}
    {f : Field} {v : Violation} (distinct : AreDistinct ranges before)
    (disjoint : ExtensionRange.AreDisjoint ranges) :
    fault? scope ranges before f = some v ↔
      (∃ first, before.filter (fun g => g.tag = f.tag) = [first] ∧
        v = .duplicateTag scope f.tag first.name f.name) ∨
      f.tag ∉ before.map (·.tag) ∧
        (f.name ∈ before.map (·.name) ∧ v = .duplicateName scope f.name ∨
        f.name ∉ before.map (·.name) ∧
          ∃ r, ranges.filter (fun s => s.contains f.tag) = [r] ∧
            v = .tagInExtensionRange f.name f.tag r.first r.last) := by
  have apart : ranges.Pairwise fun r s => ¬ (r.contains f.tag = true ∧ s.contains f.tag = true) :=
    disjoint.imp fun differ both => by
      simp only [ExtensionRange.contains_iff] at both
      omega
  have byTag : (before.find? fun g => g.tag = f.tag) = none ↔ f.tag ∉ before.map (·.tag) :=
    find?_key_eq_none_iff
  have byName : (before.any fun g => g.name = f.name) = true ↔ f.name ∈ before.map (·.name) := by
    simp
  -- Tags in front differ and ranges share no tag, so each search can find one thing only.
  unfold fault?
  simp only [← find?_key_eq_some_iff_filter distinct.tags, ← byTag,
    ← find?_eq_some_iff_filter apart]
  cases before.find? (fun g => decide (g.tag = f.tag)) with
  | some first => simp [eq_comm (b := v)]
  | none =>
    by_cases repeated : f.name ∈ before.map (·.name)
    · simp only [if_pos (byName.mpr repeated)]
      simp [repeated, -List.mem_map, eq_comm (b := v)]
    · simp only [if_neg (mt byName.mp repeated)]
      simp [repeated, -List.mem_map, eq_comm (b := v)]

theorem firstFault?_eq_some_iff_firstFault {scope : String} {ranges : List ExtensionRange}
    {fields : List Field} {v : Violation} (disjoint : ExtensionRange.AreDisjoint ranges) :
    firstFault? (fault? scope ranges) [] fields = some v ↔ FirstFault scope ranges fields v := by
  rw [firstFault?_eq_some_iff fun _ => firstFault?_eq_none_iff_areDistinct]
  simp only [List.nil_append]
  constructor
  · rintro ⟨before, f, breaks, found⟩
    rcases (fault?_eq_some_iff breaks.good disjoint).mp found with
      ⟨first, only, rfl⟩ | ⟨tag, ⟨name, rfl⟩ | ⟨name, r, only, rfl⟩⟩
    · exact .tag breaks only
    · exact .name breaks tag name
    · exact .range breaks tag name only
  · intro fault
    cases fault with
    | tag breaks only =>
      exact ⟨_, _, breaks, (fault?_eq_some_iff breaks.good disjoint).mpr (.inl ⟨_, only, rfl⟩)⟩
    | name breaks tag name =>
      exact ⟨_, _, breaks,
        (fault?_eq_some_iff breaks.good disjoint).mpr (.inr ⟨tag, .inl ⟨name, rfl⟩⟩)⟩
    | range breaks tag name only =>
      exact ⟨_, _, breaks,
        (fault?_eq_some_iff breaks.good disjoint).mpr (.inr ⟨tag, .inr ⟨name, _, only, rfl⟩⟩)⟩

end Field

/-! ### Messages and extend blocks -/

section Checks

variable {γ : Type} {next : Unit → Except Violation γ} {v : Violation}

theorem demand_bind_eq_error_iff {condition : Bool} {violation : Violation} :
    (demand condition violation >>= next) = .error v ↔
      condition = false ∧ v = violation ∨ condition = true ∧ next () = .error v := by
  cases condition with
  | true => simp [demand, bind, Except.bind]
  | false => simp [demand, bind, Except.bind, eq_comm (b := v)]

/-- The check for a name is the first one that can fail. -/
theorem demand_name_bind_eq_error_iff {name : String} {violation : Violation} :
    (demand (name ≠ "") violation >>= next) = .error v ↔
      name = "" ∧ v = violation ∨ name ≠ "" ∧ next () = .error v := by
  rw [demand_bind_eq_error_iff, decide_eq_false_iff_not, not_not, decide_eq_true_eq]

theorem refuse_bind_eq_error_iff {fault : Option Violation} :
    (refuse fault >>= next) = .error v ↔ fault = some v ∨ fault = none ∧ next () = .error v := by
  cases fault <;> simp [refuse, bind, Except.bind]

end Checks

/-- The types in a message with these fields differ in name from each other and from the fields. -/
def TypeDecl.AreNamedApart (fields : List Field) (types : List TypeDecl) : Prop :=
  (types.map TypeDecl.name).Nodup ∧ ∀ t ∈ types, t.name ∉ fields.map (·.name)

/-- The parts of a message agree with each other. -/
structure MessageBody.IsConsistent (body : MessageBody) : Prop where
  ranges : ExtensionRange.AreDisjoint body.extensions
  fields : Field.AreDistinct body.extensions body.fields
  nested : TypeDecl.AreNamedApart body.fields body.nested

namespace Message

/-- The fault that is reported of a message: that it has no name, else the first range that has a
tag of an earlier one, else the first fault of the fields, else the first type in it that has the
name of a field or of an earlier type. -/
inductive FirstFault (name fullName : String) (body : MessageBody) : Violation → Prop
  | unnamed : name = "" → FirstFault name fullName body (.emptyName .message)
  | range {before : List ExtensionRange} {r : ExtensionRange} :
      name ≠ "" → BreaksAt ExtensionRange.AreDisjoint body.extensions before r →
        FirstFault name fullName body (.invalidExtensionRange r.first r.last)
  | field {v : Violation} :
      name ≠ "" → ExtensionRange.AreDisjoint body.extensions →
      Field.FirstFault fullName body.extensions body.fields v → FirstFault name fullName body v
  | nested {before : List TypeDecl} {t : TypeDecl} :
      name ≠ "" → ExtensionRange.AreDisjoint body.extensions →
      Field.AreDistinct body.extensions body.fields →
      BreaksAt (TypeDecl.AreNamedApart body.fields) body.nested before t →
        FirstFault name fullName body (.duplicateName fullName t.name)

end Message

/-- A type is refused if it is the first one in a message that has a name in use. -/
theorem TypeDecl.firstRepeat?_eq_some_iff_breaksAt {fields : List Field} {types : List TypeDecl}
    {name : String} :
    firstRepeat? (fields.map (·.name)) (types.map TypeDecl.name) = some name ↔
      ∃ before t, BreaksAt (AreNamedApart fields) types before t ∧ t.name = name := by
  rw [firstRepeat?_eq_some_iff, exists_breaksAt_map_iff]
  have same (types : List TypeDecl) :
      ((types.map TypeDecl.name).Nodup ∧
        ∀ name ∈ types.map TypeDecl.name, name ∉ fields.map (·.name)) ↔
      AreNamedApart fields types := by
    rw [AreNamedApart, List.forall_mem_map]
  simp only [same]

theorem TypeDecl.firstRepeat?_eq_none_iff_areNamedApart {fields : List Field}
    {types : List TypeDecl} :
    firstRepeat? (fields.map (·.name)) (types.map TypeDecl.name) = none ↔
      AreNamedApart fields types := by
  rw [firstRepeat?_eq_none_iff, AreNamedApart, List.forall_mem_map]

theorem Message.make_eq_error_iff {name fullName doc : String} {body : MessageBody}
    {v : Violation} :
    make name fullName doc body = .error v ↔ FirstFault name fullName body v := by
  simp only [make, demand_name_bind_eq_error_iff, refuse_bind_eq_error_iff,
    ExtensionRange.firstFault?_eq_none_iff_areDisjoint,
    ExtensionRange.firstFault?_eq_some_iff_breaksAt, Field.firstFault?_eq_none_iff_areDistinct,
    Option.map_eq_some_iff, TypeDecl.firstRepeat?_eq_some_iff_breaksAt]
  constructor
  · rintro (⟨unnamed, rfl⟩ | ⟨named, ⟨before, r, breaks, rfl⟩ | ⟨disjoint, fault |
      ⟨distinct, ⟨_, ⟨before, t, breaks, rfl⟩, rfl⟩ | ⟨_, done⟩⟩⟩⟩)
    · exact .unnamed unnamed
    · exact .range named breaks
    · exact .field named disjoint ((Field.firstFault?_eq_some_iff_firstFault disjoint).mp fault)
    · exact .nested named disjoint distinct breaks
    · cases done
  · intro fault
    cases fault with
    | unnamed unnamed => exact .inl ⟨unnamed, rfl⟩
    | range named breaks => exact .inr ⟨named, .inl ⟨_, _, breaks, rfl⟩⟩
    | field named disjoint fault =>
      exact .inr ⟨named, .inr ⟨disjoint,
        .inl ((Field.firstFault?_eq_some_iff_firstFault disjoint).mpr fault)⟩⟩
    | nested named disjoint distinct breaks =>
      exact .inr ⟨named, .inr ⟨disjoint, .inr ⟨distinct, .inl ⟨_, ⟨_, _, breaks, rfl⟩, rfl⟩⟩⟩⟩

theorem Message.make_eq_ok_iff_isConsistent {name fullName doc : String} {body : MessageBody}
    {m : Message} :
    make name fullName doc body = .ok m ↔
      name ≠ "" ∧ body.IsConsistent ∧
        m = ⟨name, fullName, doc, body.fields, body.nested, body.extendBlocks, body.extensions,
          body.options⟩ := by
  simp only [make, demand_bind_eq_ok_iff, refuse_bind_eq_ok_iff, decide_eq_true_eq,
    ExtensionRange.firstFault?_eq_none_iff_areDisjoint, Field.firstFault?_eq_none_iff_areDistinct,
    Option.map_eq_none_iff, TypeDecl.firstRepeat?_eq_none_iff_areNamedApart, pure, Except.pure,
    Except.ok.injEq]
  constructor
  · rintro ⟨named, ranges, fields, nested, rfl⟩
    exact ⟨named, ⟨ranges, fields, nested⟩, rfl⟩
  · rintro ⟨named, ⟨ranges, fields, nested⟩, rfl⟩
    exact ⟨named, ranges, fields, nested, rfl⟩

/-- The fault that is reported of an extend block: that it has no target, else the first fault of
the fields, of which no tag is left to extensions. -/
inductive ExtendBlock.FirstFault (target : String) (fields : List Field) : Violation → Prop
  | unnamed : target = "" → FirstFault target fields (.emptyName .extendTarget)
  | field {v : Violation} :
      target ≠ "" → Field.FirstFault target [] fields v → FirstFault target fields v

theorem ExtendBlock.make_eq_error_iff {target doc : String} {fields : List Field} {v : Violation} :
    make target doc fields = .error v ↔ FirstFault target fields v := by
  simp only [make, demand_name_bind_eq_error_iff, refuse_bind_eq_error_iff,
    Field.firstFault?_eq_some_iff_firstFault List.Pairwise.nil]
  constructor
  · rintro (⟨unnamed, rfl⟩ | ⟨named, fault | ⟨_, done⟩⟩)
    · exact .unnamed unnamed
    · exact .field named fault
    · cases done
  · intro fault
    cases fault with
    | unnamed unnamed => exact .inl ⟨unnamed, rfl⟩
    | field named fault => exact .inr ⟨named, .inl fault⟩

theorem ExtendBlock.make_eq_ok_iff_areDistinct {target doc : String} {fields : List Field}
    {e : ExtendBlock} :
    make target doc fields = .ok e ↔
      target ≠ "" ∧ Field.AreDistinct [] fields ∧ e = ⟨target, doc, fields⟩ := by
  simp only [make, demand_bind_eq_ok_iff, refuse_bind_eq_ok_iff, decide_eq_true_eq,
    Field.firstFault?_eq_none_iff_areDistinct, pure, Except.pure, Except.ok.injEq,
    eq_comm (b := e)]

/-- A message is made of its parts as they are if they agree with each other, and is refused with
its first fault otherwise; so is an extend block. -/
theorem Message.makes_or_reports (name fullName doc : String) :
    (∀ body : MessageBody,
      (∀ m, make name fullName doc body = .ok m ↔
        name ≠ "" ∧ body.IsConsistent ∧
          m = ⟨name, fullName, doc, body.fields, body.nested, body.extendBlocks, body.extensions,
            body.options⟩) ∧
      ∀ v, make name fullName doc body = .error v ↔ FirstFault name fullName body v) ∧
    ∀ (target : String) (fields : List Field),
      (∀ e, ExtendBlock.make target doc fields = .ok e ↔
        target ≠ "" ∧ Field.AreDistinct [] fields ∧ e = ⟨target, doc, fields⟩) ∧
      ∀ v, ExtendBlock.make target doc fields = .error v ↔
        ExtendBlock.FirstFault target fields v :=
  ⟨fun _ => ⟨fun _ => make_eq_ok_iff_isConsistent, fun _ => make_eq_error_iff⟩,
    fun _ _ => ⟨fun _ => ExtendBlock.make_eq_ok_iff_areDistinct,
      fun _ => ExtendBlock.make_eq_error_iff⟩⟩

/-- A field that repeats both the tag and the name of another one is refused for its tag. -/
example :
    ExtendBlock.make "Point" "" [⟨.optional, "int32", "x", 1, "", []⟩,
        ⟨.optional, "int32", "x", 1, "", []⟩] =
      .error (.duplicateTag "Point" 1 "x" "x") := by
  decide

/-! ### Enums -/

/-- The first option of the name `allow_alias` has the identifier `true` as its value. -/
def EnumType.AllowsAliases (options : List Setting) : Prop :=
  ∃ before after, options = before ++ ⟨"allow_alias", .ident "true"⟩ :: after ∧
    ∀ s ∈ before, s.name ≠ "allow_alias"

theorem EnumType.allowsAlias_iff_allowsAliases {options : List Setting} :
    allowsAlias options = true ↔ AllowsAliases options := by
  rw [allowsAlias_iff, Setting.find?, Option.map_eq_some_iff]
  simp only [List.find?_eq_some_iff_append, Bool.not_eq_true', decide_eq_false_iff_not,
    decide_eq_true_eq]
  constructor
  · rintro ⟨⟨name, value⟩, ⟨rfl, before, after, rfl, unset⟩, rfl⟩
    exact ⟨before, after, rfl, unset⟩
  · rintro ⟨before, after, rfl, unset⟩
    exact ⟨_, ⟨rfl, before, after, rfl, unset⟩, rfl⟩

namespace EnumValue

/-- The values of an enum differ in names and, where aliases are not allowed, in numbers. -/
structure AreDistinct (options : List Setting) (values : List EnumValue) : Prop where
  names : (values.map (·.name)).Nodup
  tags : EnumType.AllowsAliases options ∨ (values.map (·.tag)).Nodup

theorem pairwise_agrees_iff {aliased : Bool} {values : List EnumValue} :
    values.Pairwise (Agrees aliased) ↔
      (values.map (·.name)).Nodup ∧ (aliased = false → (values.map (·.tag)).Nodup) := by
  constructor
  · intro agree
    exact ⟨List.pairwise_map.mpr (agree.imp And.left),
      fun strict => List.pairwise_map.mpr (agree.imp fun h => h.2 strict)⟩
  · rintro ⟨names, tags⟩
    have byName := List.pairwise_map.mp names
    cases aliased with
    | true => exact byName.imp fun differ => ⟨differ, nofun⟩
    | false =>
      have byTag := List.pairwise_map.mp (tags rfl)
      exact (byName.and byTag).imp fun ⟨name, tag⟩ => ⟨name, fun _ => tag⟩

theorem firstFault?_eq_none_iff_areDistinct {scope : String} {options : List Setting}
    {values : List EnumValue} :
    firstFault? (fault? scope (EnumType.allowsAlias options)) [] values = none ↔
      AreDistinct options values := by
  rw [firstFault?_values_iff, pairwise_agrees_iff, ← Bool.not_eq_true,
    EnumType.allowsAlias_iff_allowsAliases, ← or_iff_not_imp_left]
  exact ⟨fun ⟨names, tags⟩ => ⟨names, tags⟩, fun ⟨names, tags⟩ => ⟨names, tags⟩⟩

/-- What is wrong with a value behind values that agree: its name comes first, then its number. -/
theorem fault?_eq_some_iff {scope : String} {options : List Setting} {before : List EnumValue}
    {value : EnumValue} {v : Violation} (distinct : AreDistinct options before) :
    fault? scope (EnumType.allowsAlias options) before value = some v ↔
      value.name ∈ before.map (·.name) ∧ v = .duplicateName scope value.name ∨
      value.name ∉ before.map (·.name) ∧ ¬ EnumType.AllowsAliases options ∧
        ∃ first, before.filter (fun w => w.tag = value.tag) = [first] ∧
          v = .duplicateTag scope value.tag first.name value.name := by
  have byName :
      (before.any fun w => w.name = value.name) = true ↔ value.name ∈ before.map (·.name) := by
    simp
  rw [fault?]
  by_cases repeated : value.name ∈ before.map (·.name)
  · simp only [if_pos (byName.mpr repeated)]
    simp [repeated, -List.mem_map, eq_comm (b := v)]
  · simp only [if_neg (mt byName.mp repeated)]
    by_cases aliased : EnumType.AllowsAliases options
    · simp [EnumType.allowsAlias_iff_allowsAliases.mpr aliased, aliased, repeated, -List.mem_map]
    · -- The numbers in front differ, so the one that is found is the only one.
      have denied := mt EnumType.allowsAlias_iff_allowsAliases.mp aliased
      have tags := distinct.tags.resolve_left aliased
      simp [denied, aliased, repeated, -List.mem_map, eq_comm (b := v),
        ← find?_key_eq_some_iff_filter tags]

end EnumValue

namespace EnumType

/-- The fault that is reported of an enum: that it has no name, else one of the first value that is
at odds with a value in front of it. Its name is that of a value in front, or else its number is that
of one value in front and aliases are not allowed. -/
inductive FirstFault (name fullName : String) (values : List EnumValue) (options : List Setting) :
    Violation → Prop
  | unnamed : name = "" → FirstFault name fullName values options (.emptyName .enumType)
  | name {before : List EnumValue} {value : EnumValue} :
      name ≠ "" → BreaksAt (EnumValue.AreDistinct options) values before value →
      value.name ∈ before.map (·.name) →
        FirstFault name fullName values options (.duplicateName fullName value.name)
  | tag {before : List EnumValue} {value first : EnumValue} :
      name ≠ "" → BreaksAt (EnumValue.AreDistinct options) values before value →
      value.name ∉ before.map (·.name) → ¬ AllowsAliases options →
      before.filter (fun w => w.tag = value.tag) = [first] →
        FirstFault name fullName values options
          (.duplicateTag fullName value.tag first.name value.name)

theorem make_eq_error_iff {name fullName doc : String} {values : List EnumValue}
    {options : List Setting} {v : Violation} :
    make name fullName doc values options = .error v ↔
      FirstFault name fullName values options v := by
  simp only [make, demand_name_bind_eq_error_iff, refuse_bind_eq_error_iff, List.nil_append,
    firstFault?_eq_some_iff fun _ => EnumValue.firstFault?_eq_none_iff_areDistinct]
  constructor
  · rintro (⟨unnamed, rfl⟩ | ⟨named, ⟨before, value, breaks, fault⟩ | ⟨_, done⟩⟩)
    · exact .unnamed unnamed
    · rcases (EnumValue.fault?_eq_some_iff breaks.good).mp fault with
        ⟨repeated, rfl⟩ | ⟨differs, denied, first, only, rfl⟩
      · exact .name named breaks repeated
      · exact .tag named breaks differs denied only
    · cases done
  · intro fault
    cases fault with
    | unnamed unnamed => exact .inl ⟨unnamed, rfl⟩
    | name named breaks repeated =>
      exact .inr ⟨named, .inl ⟨_, _, breaks,
        (EnumValue.fault?_eq_some_iff breaks.good).mpr (.inl ⟨repeated, rfl⟩)⟩⟩
    | tag named breaks differs denied only =>
      exact .inr ⟨named, .inl ⟨_, _, breaks, (EnumValue.fault?_eq_some_iff breaks.good).mpr
        (.inr ⟨differs, denied, _, only, rfl⟩)⟩⟩

theorem make_eq_ok_iff_areDistinct {name fullName doc : String} {values : List EnumValue}
    {options : List Setting} {e : EnumType} :
    make name fullName doc values options = .ok e ↔
      name ≠ "" ∧ EnumValue.AreDistinct options values ∧
        e = ⟨name, fullName, doc, values, options⟩ := by
  simp only [make, demand_bind_eq_ok_iff, refuse_bind_eq_ok_iff, decide_eq_true_eq,
    EnumValue.firstFault?_eq_none_iff_areDistinct, pure, Except.pure, Except.ok.injEq,
    eq_comm (b := e)]

end EnumType

/-! ### Services and files -/

/-- The first repeat of a list of names is the name with which they cease to differ. -/
theorem firstRepeat?_nil_eq_some_iff {names : List String} {name : String} :
    firstRepeat? [] names = some name ↔ ∃ before, BreaksAt List.Nodup names before name := by
  rw [firstRepeat?_eq_some_iff]
  simp only [List.not_mem_nil, not_false_eq_true, implies_true, and_true]

/-- The fault that is reported of a service: that it has no name, else the first method that has the
name of one in front of it. -/
inductive Service.FirstFault (name fullName : String) (methods : List Method) : Violation → Prop
  | unnamed : name = "" → FirstFault name fullName methods (.emptyName .service)
  | repeated {before : List Method} {m : Method} :
      name ≠ "" → BreaksAt (fun methods => (methods.map (·.name)).Nodup) methods before m →
        FirstFault name fullName methods (.duplicateName fullName m.name)

theorem Service.make_eq_error_iff {name fullName doc : String} {options : List Setting}
    {methods : List Method} {v : Violation} :
    make name fullName doc options methods = .error v ↔ FirstFault name fullName methods v := by
  simp only [make, demand_name_bind_eq_error_iff, refuse_bind_eq_error_iff,
    Option.map_eq_some_iff, firstRepeat?_nil_eq_some_iff, exists_breaksAt_map_iff]
  constructor
  · rintro (⟨unnamed, rfl⟩ | ⟨named, ⟨_, ⟨before, m, breaks, rfl⟩, rfl⟩ | ⟨_, done⟩⟩)
    · exact .unnamed unnamed
    · exact .repeated named breaks
    · cases done
  · intro fault
    cases fault with
    | unnamed unnamed => exact .inl ⟨unnamed, rfl⟩
    | repeated named breaks => exact .inr ⟨named, .inl ⟨_, ⟨_, _, breaks, rfl⟩, rfl⟩⟩

/-- A file is refused with the first name that two of its types and services share, in a scope that
has the name of the package if there is one. -/
theorem SchemaFile.make_eq_error_iff {name : String} {body : FileBody} {v : Violation} :
    make name body = .error v ↔
      ∃ before repeated,
        BreaksAt List.Nodup (body.types.map TypeDecl.name ++ body.services.map Service.name) before
          repeated ∧
        v = .duplicateName (if body.package = "" then "<file>" else body.package) repeated := by
  simp only [make, refuse_bind_eq_error_iff, Option.map_eq_some_iff, firstRepeat?_nil_eq_some_iff]
  constructor
  · rintro (⟨repeated, ⟨before, breaks⟩, rfl⟩ | ⟨_, done⟩)
    · exact ⟨before, repeated, breaks, rfl⟩
    · cases done
  · rintro ⟨before, repeated, breaks, rfl⟩
    exact .inl ⟨repeated, ⟨before, breaks⟩, rfl⟩

/-- Enums, services and files are made of their parts as they are if those differ as they have to,
and are refused with their first fault otherwise. -/
theorem SchemaFile.makes_or_reports_repeat (name fullName doc : String) (options : List Setting) :
    (∀ values : List EnumValue,
      (∀ e, EnumType.make name fullName doc values options = .ok e ↔
        name ≠ "" ∧ EnumValue.AreDistinct options values ∧
          e = ⟨name, fullName, doc, values, options⟩) ∧
      ∀ v, EnumType.make name fullName doc values options = .error v ↔
        EnumType.FirstFault name fullName values options v) ∧
    (∀ methods : List Method,
      (∀ s, Service.make name fullName doc options methods = .ok s ↔
        name ≠ "" ∧ (methods.map (·.name)).Nodup ∧ s = ⟨name, fullName, doc, options, methods⟩) ∧
      ∀ v, Service.make name fullName doc options methods = .error v ↔
        Service.FirstFault name fullName methods v) ∧
    ∀ body : FileBody,
      (∀ f, make name body = .ok f ↔
        (body.types.map TypeDecl.name ++ body.services.map Service.name).Nodup ∧
          f = {
            body with
            name
            typesBeforePackage := min body.typesBeforePackage body.types.length
            servicesBeforePackage := min body.servicesBeforePackage body.services.length }) ∧
      ∀ v, make name body = .error v ↔
        ∃ before repeated,
          BreaksAt List.Nodup (body.types.map TypeDecl.name ++ body.services.map Service.name)
            before repeated ∧
          v = .duplicateName (if body.package = "" then "<file>" else body.package) repeated := by
  refine ⟨fun values => ⟨fun e => EnumType.make_eq_ok_iff_areDistinct,
      fun v => EnumType.make_eq_error_iff⟩,
    fun methods => ⟨fun s => ?_, fun v => Service.make_eq_error_iff⟩,
    fun body => ⟨fun f => ?_, fun v => make_eq_error_iff⟩⟩
  · rw [Service.make_eq_ok_iff, eq_comm (b := s)]
  · rw [make_eq_ok_iff, eq_comm (b := f)]

end ProtoSchema
