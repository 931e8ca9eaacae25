/-!
# Tags

The numbers that name fields on the wire, and which of them a field may have.
-/

namespace ProtoSchema

/-- The greatest tag of a field. -/
def maxTag : Nat := 536870911

/-- The tags kept for the wire format itself. -/
def isReservedTag (tag : Nat) : Bool :=
  19000 ≤ tag && tag ≤ 19999

/-- Whether an integer is a tag at all, reserved or not. -/
def isTag (n : Int) : Bool :=
  1 ≤ n && n ≤ maxTag

/-- Whether an integer fits the wire type of enum values. -/
def isEnumNumber (n : Int) : Bool :=
  -0x80000000 ≤ n && n < 0x80000000

end ProtoSchema
