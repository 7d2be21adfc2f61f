import ConstFlow.Program.DataType

/-! # Variables

A variable is known by its number: variables with one number are `==`, whatever their
names and types, and they are ordered by number.
-/
namespace ConstFlow

structure Variable where
  id : Nat
  name : String
  type : DataType
  deriving Repr

namespace Variable

instance : BEq Variable := ⟨fun x y => x.id == y.id⟩

instance : Ord Variable := ⟨fun x y => compare x.id y.id⟩

theorem beq_iff {x y : Variable} : (x == y) = true ↔ x.id = y.id := beq_iff_eq (α := Nat)

instance : EquivBEq Variable where
  rfl := beq_iff.mpr rfl
  symm h := beq_iff.mpr (beq_iff.mp h).symm
  trans h k := beq_iff.mpr ((beq_iff.mp h).trans (beq_iff.mp k))

/-- Whether the analyses of integer values follow the variable. -/
def holdsInt (x : Variable) : Bool := x.type.isIntLike

end Variable
end ConstFlow
