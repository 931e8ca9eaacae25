import Mathlib.Data.List.Basic
import ProtoSchema.Schema.File

/-!
# The types of a file one after the other

A walk visits the types of a file in preorder: each type that is declared somewhere, once, in the
order of the places where they are declared. A search by full name is a search among these types.
-/

namespace ProtoSchema

/-! ### Trees of types -/

mutual

/-- What holds of a type whenever it holds of the types in it holds of all types. -/
theorem TypeDecl.nested_induction {motive : TypeDecl → Prop}
    (step : ∀ t, (∀ u ∈ t.nested, motive u) → motive t) (t : TypeDecl) : motive t := by
  match t with
  | .message ⟨_, _, _, _, types, _, _, _⟩ =>
    exact step _ (TypeDecl.nested_induction_all step types)
  | .enumType e => exact step _ (List.forall_mem_nil _)

private theorem TypeDecl.nested_induction_all {motive : TypeDecl → Prop}
    (step : ∀ t, (∀ u ∈ t.nested, motive u) → motive t) (ts : List TypeDecl) :
    ∀ t ∈ ts, motive t := by
  match ts with
  | [] => exact List.forall_mem_nil _
  | t :: ts =>
    exact List.forall_mem_cons.mpr
      ⟨TypeDecl.nested_induction step t, TypeDecl.nested_induction_all step ts⟩

end

namespace TypeDecl

variable {t : TypeDecl} {ts : List TypeDecl}

theorem preorderAll_eq_flatMap (ts : List TypeDecl) : preorderAll ts = ts.flatMap preorder := by
  induction ts with
  | nil => simp [preorderAll]
  | cons t ts ih => simp [preorderAll, ih]

theorem preorderAll_cons (t : TypeDecl) (ts : List TypeDecl) :
    preorderAll (t :: ts) = t :: (preorderAll t.nested ++ preorderAll ts) := by
  rw [preorderAll, preorder_eq, List.cons_append]

/-! ### Places of types -/

/-- The type at a place among types. A place is a path: the number of a type, then the number of one
of the types in it, and so on. -/
def at? : List TypeDecl → List Nat → Option TypeDecl
  | _, [] => none
  | ts, i :: path => ts[i]?.bind fun t => if path = [] then some t else at? t.nested path

/-- These are all types that there are among some types and in them, each one at its place, and the
places are in order: that of a type comes before those in it, and these before the next one. -/
structure IsPreorder (ts : List TypeDecl) (places : List (List Nat)) (listed : List TypeDecl) :
    Prop where
  listed : listed.map some = places.map (at? ts)
  sorted : places.Pairwise (· < ·)
  all : ∀ place, place ∈ places ↔ (at? ts place).isSome

theorem IsPreorder.ne_nil {places : List (List Nat)} {listed : List TypeDecl}
    (h : IsPreorder ts places listed) : ∀ place ∈ places, place ≠ [] := by
  rintro _ member rfl
  cases (h.all []).mp member

/-- The place of a type if there is one type more in front. -/
def behindOne : List Nat → List Nat
  | [] => []
  | i :: path => (i + 1) :: path

theorem at?_behindOne (place : List Nat) : at? (t :: ts) (behindOne place) = at? ts place := by
  cases place <;> rfl

theorem at?_zero {path : List Nat} (inside : path ≠ []) :
    at? (t :: ts) (0 :: path) = at? t.nested path :=
  if_neg inside

theorem behindOne_lt {place place' : List Nat} (h : place < place') :
    behindOne place < behindOne place' := by
  cases place with
  | nil =>
    cases place' with
    | nil => exact h
    | cons => exact List.nil_lt_cons ..
  | cons =>
    cases place' with
    | nil => exact absurd h (List.not_lt_nil _)
    | cons => simpa [behindOne, List.cons_lt_cons_iff] using h

theorem zero_lt_behindOne {place : List Nat} (some : place ≠ []) (path : List Nat) :
    0 :: path < behindOne place := by
  obtain ⟨i, rest, rfl⟩ := List.exists_cons_of_ne_nil some
  simp [behindOne, List.cons_lt_cons_iff]

theorem behindOne_eq_cons_iff {place path : List Nat} {i : Nat} :
    behindOne place = i :: path ↔ ∃ j, i = j + 1 ∧ place = j :: path := by
  cases place with
  | nil => simp [behindOne]
  | cons j rest => simp [behindOne, eq_comm]

/-- A type comes first, then what is in it and then what is behind it. -/
theorem IsPreorder.cons {inner outer : List (List Nat)} {nested later : List TypeDecl}
    (first : IsPreorder t.nested inner nested) (second : IsPreorder ts outer later) :
    IsPreorder (t :: ts) ([0] :: (inner.map (0 :: ·) ++ outer.map behindOne))
      (t :: (nested ++ later)) where
  listed := by
    have inside : (inner.map (0 :: ·)).map (at? (t :: ts)) = inner.map (at? t.nested) := by
      rw [List.map_map]
      exact List.map_congr_left fun path member => at?_zero (first.ne_nil path member)
    have behind : (outer.map behindOne).map (at? (t :: ts)) = outer.map (at? ts) := by
      rw [List.map_map]
      exact List.map_congr_left fun place _ => at?_behindOne place
    rw [List.map_cons, List.map_cons, List.map_append, List.map_append, inside, behind,
      first.listed, second.listed]
    rfl
  sorted := by
    have inside : (inner.map (0 :: ·)).Pairwise (· < ·) :=
      List.pairwise_map.mpr (first.sorted.imp fun h => by simpa [List.cons_lt_cons_iff] using h)
    have behind : (outer.map behindOne).Pairwise (· < ·) :=
      List.pairwise_map.mpr (second.sorted.imp behindOne_lt)
    refine .cons ?_ (List.pairwise_append.mpr ⟨inside, behind, ?_⟩)
    · refine List.forall_mem_append.mpr ⟨List.forall_mem_map.mpr fun path member => ?_,
        List.forall_mem_map.mpr fun place member => ?_⟩
      · obtain ⟨i, rest, rfl⟩ := List.exists_cons_of_ne_nil (first.ne_nil path member)
        simp
      · exact zero_lt_behindOne (second.ne_nil place member) []
    · refine List.forall_mem_map.mpr fun path _ => List.forall_mem_map.mpr fun place member => ?_
      exact zero_lt_behindOne (second.ne_nil place member) path
  all place := by
    -- A place is that of the type itself, one in it, or one behind it.
    cases place with
    | nil =>
      have noPlace : [] ∉ outer.map behindOne := by
        intro member
        obtain ⟨place, member, none⟩ := List.mem_map.mp member
        obtain ⟨i, rest, rfl⟩ := List.exists_cons_of_ne_nil (second.ne_nil place member)
        cases none
      simpa [at?] using noPlace
    | cons i path =>
      cases i with
      | zero =>
        by_cases own : path = []
        · subst own
          simp [at?]
        · rw [at?_zero own, ← first.all path]
          simp [own, behindOne_eq_cons_iff]
      | succ i =>
        have behind : at? (t :: ts) ((i + 1) :: path) = at? ts (i :: path) :=
          at?_behindOne (i :: path)
        rw [behind, ← second.all]
        simp [behindOne_eq_cons_iff]

theorem exists_isPreorder (ts : List TypeDecl) :
    ∃ places, IsPreorder ts places (preorderAll ts) := by
  -- Inwards the induction is on types, and on each level it is on the list of them.
  have level (ts : List TypeDecl)
      (inside : ∀ t ∈ ts, ∃ places, IsPreorder t.nested places (preorderAll t.nested)) :
      ∃ places, IsPreorder ts places (preorderAll ts) := by
    induction ts with
    | nil => exact ⟨[], rfl, .nil, fun place => by cases place <;> simp [at?]⟩
    | cons t ts ih =>
      obtain ⟨first, inside⟩ := List.forall_mem_cons.mp inside
      obtain ⟨inner, first⟩ := first
      obtain ⟨outer, second⟩ := ih inside
      rw [preorderAll_cons]
      exact ⟨_, first.cons second⟩
  exact level ts fun t _ => nested_induction (fun t ih => level t.nested ih) t

end TypeDecl

/-! ### Calls of a walk -/

namespace TypeWalk

variable {w : TypeWalk}

/-- A walk that finds no type has none left on any level. -/
theorem remaining_eq_nil_of_next? (stop : w.next? = none) : w.remaining = [] := by
  obtain ⟨levels⟩ := w
  induction levels with
  | nil => rfl
  | cons level levels ih =>
    cases level with
    | nil => simpa [remaining, TypeDecl.preorderAll] using ih stop
    | cons t ts => cases stop

/-- A walk visits what is left of it in preorder. -/
theorem toList_eq_remaining (w : TypeWalk) : w.toList = w.remaining := by
  fun_induction toList w with
  | case1 w stop => exact (remaining_eq_nil_of_next? stop).symm
  | case2 w t after step ih => rw [ih, remaining_of_next? step]

/-- One call of a walk: its answer and the walk behind it. All levels are left if there is no type
on them. -/
def call (w : TypeWalk) : Option TypeDecl × TypeWalk :=
  match w.next? with
  | some (t, after) => (some t, after)
  | none => (none, ⟨[]⟩)

/-- The answers to so many calls. -/
def answers (w : TypeWalk) : Nat → List (Option TypeDecl)
  | 0 => []
  | k + 1 => w.call.1 :: w.call.2.answers k

/-- What is answered is what is left, and then nothing again and again. -/
theorem answers_eq (w : TypeWalk) (k : Nat) :
    w.answers k = (List.range k).map (w.remaining[·]?) := by
  induction k generalizing w with
  | zero => rfl
  | succ k ih =>
    rw [answers, ih, List.range_succ_eq_map, List.map_cons, List.map_map]
    cases step : w.next? with
    | none =>
      have call : w.call = (none, ⟨[]⟩) := by rw [call, step]
      rw [remaining_eq_nil_of_next? step, call]
      simp [remaining, Function.comp_def]
    | some found =>
      obtain ⟨t, after⟩ := found
      have call : w.call = (some t, after) := by rw [call, step]
      rw [remaining_of_next? step, call]
      simp [Function.comp_def]

end TypeWalk

/-! ### The types of a file -/

namespace SchemaFile

theorem remaining_ofTypes (ts : List TypeDecl) :
    (TypeWalk.ofTypes ts).remaining = TypeDecl.preorderAll ts := by
  simp [TypeWalk.ofTypes, TypeWalk.remaining]

theorem allTypes_eq (f : SchemaFile) : f.allTypes = TypeDecl.preorderAll f.types := by
  rw [allTypes, TypeWalk.toList_eq_remaining, remaining_ofTypes]

theorem withoutLeadingDot_dot (fullName : String) :
    withoutLeadingDot ("." ++ fullName) = fullName := by
  simp [withoutLeadingDot]

theorem withoutLeadingDot_eq_self {fullName : String} (h : fullName.toList.head? ≠ some '.') :
    withoutLeadingDot fullName = fullName := by
  unfold withoutLeadingDot
  split
  next rest dot => exact absurd (by rw [dot]; rfl) h
  next => rfl

theorem findType?_eq_none_iff {f : SchemaFile} {name : String} :
    f.findType? name = none ↔ ∀ t ∈ f.allTypes, t.fullName ≠ withoutLeadingDot name := by
  simp [findType?]

/-- The types of a file are listed in preorder, which is to say a type in front of the types in it
and these in front of the next type: each declared type once, in the order of declaration. A walk
answers its calls with them and then with nothing. No type is found by a full name, a leading dot of
which is left out, exactly if none of them has it. -/
theorem allTypes_isPreorder (f : SchemaFile) :
    (f.allTypes = TypeDecl.preorderAll f.types ∧
      ∀ ts, TypeDecl.preorderAll ts = ts.flatMap fun t => t :: TypeDecl.preorderAll t.nested) ∧
      (∃ places, TypeDecl.IsPreorder f.types places f.allTypes) ∧
      (∀ k, (TypeWalk.ofTypes f.types).answers k = (List.range k).map (f.allTypes[·]?)) ∧
      ∀ name, (f.findType? ("." ++ name) = none ↔ ∀ t ∈ f.allTypes, t.fullName ≠ name) ∧
        (name.toList.head? ≠ some '.' →
          (f.findType? name = none ↔ ∀ t ∈ f.allTypes, t.fullName ≠ name)) := by
  refine ⟨⟨f.allTypes_eq, fun ts => ?_⟩, ?_, fun k => ?_, fun name => ⟨?_, fun noDot => ?_⟩⟩
  · rw [TypeDecl.preorderAll_eq_flatMap]
    exact List.flatMap_congr fun t _ => t.preorder_eq
  · rw [allTypes_eq]
    exact TypeDecl.exists_isPreorder f.types
  · rw [TypeWalk.answers_eq, remaining_ofTypes, allTypes_eq]
  · rw [findType?_eq_none_iff, withoutLeadingDot_dot]
  · rw [findType?_eq_none_iff, withoutLeadingDot_eq_self noDot]

end SchemaFile

end ProtoSchema
