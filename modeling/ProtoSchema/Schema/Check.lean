import ProtoSchema.Schema.Violation

/-!
# Checks

How the rules about a declaration are applied: one after the other, and each rule about a list from
its first element on, so that the first broken rule is the one reported. `firstFault?_eq_none_iff`
and `firstRepeat?_eq_none_iff` say when a list passes.
-/

namespace ProtoSchema

variable {α β : Type}

/-- Goes on if a condition holds and reports a violation otherwise. -/
def demand (condition : Bool) (violation : Violation) : Except Violation Unit :=
  if condition then .ok () else .error violation

/-- Goes on if no violation was found. -/
def refuse : Option Violation → Except Violation Unit
  | none => .ok ()
  | some violation => .error violation

theorem demand_eq_ok_iff {condition : Bool} {violation : Violation} :
    demand condition violation = .ok () ↔ condition = true := by
  cases condition <;> simp [demand]

/-- The first fault in a list whose elements are judged by the ones before them; `earlier` are the
elements before the list. -/
def firstFault? (fault? : List α → α → Option β) (earlier : List α) : List α → Option β
  | [] => none
  | x :: rest =>
    match fault? earlier x with
    | some fault => some fault
    | none => firstFault? fault? (earlier ++ [x]) rest

/-- A list passes if each element agrees with all that stand before it. -/
theorem firstFault?_eq_none_iff {fault? : List α → α → Option β} {earlier xs : List α} :
    firstFault? fault? earlier xs = none ↔
      ∀ before x after, xs = before ++ x :: after → fault? (earlier ++ before) x = none := by
  induction xs generalizing earlier with
  | nil => simp [firstFault?]
  | cons y rest ih =>
    constructor
    · intro passes before x after same
      cases found : fault? earlier y with
      | some fault => simp [firstFault?, found] at passes
      | none =>
        rw [firstFault?, found] at passes
        cases before with
        | nil =>
          cases same
          simpa using found
        | cons z before =>
          cases same
          simpa using ih.1 passes before x after rfl
    · -- The head has nothing before it; each further element has the head before it.
      intro agrees
      have head := agrees [] y rest rfl
      rw [List.append_nil] at head
      rw [firstFault?, head]
      refine ih.2 fun before x after same => ?_
      simpa using agrees (y :: before) x after (by rw [same]; rfl)

/-- The first name of a list that stands in `taken` or earlier in the list. -/
def firstRepeat? (taken names : List String) : Option String :=
  firstFault? (fun earlier name => if name ∈ earlier then some name else none) taken names

/-- A list passes if its names differ from each other and from those taken. -/
theorem firstRepeat?_eq_none_iff {taken names : List String} :
    firstRepeat? taken names = none ↔ names.Nodup ∧ ∀ name ∈ names, name ∉ taken := by
  induction names generalizing taken with
  | nil => simp [firstRepeat?, firstFault?]
  | cons name rest ih =>
    unfold firstRepeat? at ih ⊢
    by_cases h : name ∈ taken
    · simp [firstFault?, h]
    · simp only [firstFault?, h, if_false, ih, List.nodup_cons, List.mem_cons, List.mem_append]
      grind

end ProtoSchema
