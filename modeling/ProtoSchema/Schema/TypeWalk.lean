import ProtoSchema.Schema.Message

/-!
# Walking over types

A walk visits types one by one, each before the types inside it. It keeps the lists of types that it
still has to visit, the innermost list first; `remaining_of_next?` says that it visits them in
preorder.
-/

namespace ProtoSchema

/-- A walk under way: the types left on each level, the innermost level first. -/
structure TypeWalk where
  levels : List (List TypeDecl)
  deriving DecidableEq, Repr

namespace TypeWalk

/-- A walk over types that has not begun. -/
def ofTypes (types : List TypeDecl) : TypeWalk := ⟨[types]⟩

/-- The next type and the walk behind it. -/
def next? (w : TypeWalk) : Option (TypeDecl × TypeWalk) :=
  go w.levels
where
  go : List (List TypeDecl) → Option (TypeDecl × TypeWalk)
    | [] => none
    | [] :: levels => go levels
    | (t :: ts) :: levels => some (t, ⟨t.nested :: ts :: levels⟩)

/-- All types that are still to be visited, in preorder. -/
def remaining (w : TypeWalk) : List TypeDecl :=
  w.levels.flatMap TypeDecl.preorderAll

theorem remaining_of_next? {w after : TypeWalk} {t : TypeDecl} (h : w.next? = some (t, after)) :
    w.remaining = t :: after.remaining := by
  obtain ⟨levels⟩ := w
  simp only [next?] at h
  fun_induction next?.go levels with
  | case1 => cases h
  | case2 levels ih =>
    -- A level on which nothing is left holds no types.
    simpa [remaining, TypeDecl.preorderAll] using ih h
  | case3 t ts levels =>
    cases h
    simp [remaining, TypeDecl.preorderAll, TypeDecl.preorder_eq]

/-- The types that a walk visits. -/
def toList (w : TypeWalk) : List TypeDecl :=
  match _h : w.next? with
  | none => []
  | some (t, after) => t :: after.toList
termination_by w.remaining.length
decreasing_by simp [remaining_of_next? _h]

end TypeWalk

end ProtoSchema
