import ConstFlow.Lattice.Laws
import Mathlib.Order.Lattice

/-! # Bounded lattices

The laws that are checked are equations, and the order is only asked to agree with them. This is
enough: operations obey all instances of the laws exactly if the order is partial, with least
upper and greatest lower bounds of any two elements and a least and a greatest element. Such
operations pass the check on any samples.
-/
namespace ConstFlow
variable {α : Type}

/-- The order is partial, `join` and `meet` are its least upper and greatest lower bounds, and
`bottom` and `top` are its least and greatest elements. -/
structure LatticeOps.IsBoundedLattice (ops : LatticeOps α) : Prop where
  le_refl : ∀ a, ops.le a a
  le_trans : ∀ a b c, ops.le a b → ops.le b c → ops.le a c
  le_antisymm : ∀ a b, ops.le a b → ops.le b a → a = b
  le_join_left : ∀ a b, ops.le a (ops.join a b)
  le_join_right : ∀ a b, ops.le b (ops.join a b)
  join_le : ∀ a b c, ops.le a c → ops.le b c → ops.le (ops.join a b) c
  meet_le_left : ∀ a b, ops.le (ops.meet a b) a
  meet_le_right : ∀ a b, ops.le (ops.meet a b) b
  le_meet : ∀ a b c, ops.le a b → ops.le a c → ops.le a (ops.meet b c)
  bottom_le : ∀ a, ops.le ops.bottom a
  le_top : ∀ a, ops.le a ops.top

/-- The lattice that the operations form, without its bounds. -/
@[reducible] def LatticeOps.IsBoundedLattice.toLattice {ops : LatticeOps α}
    (h : ops.IsBoundedLattice) : Lattice α where
  le a b := ops.le a b
  le_refl := h.le_refl
  le_trans := h.le_trans
  le_antisymm := h.le_antisymm
  sup := ops.join
  le_sup_left := h.le_join_left
  le_sup_right := h.le_join_right
  sup_le := h.join_le
  inf := ops.meet
  inf_le_left := h.meet_le_left
  inf_le_right := h.meet_le_right
  le_inf := h.le_meet

namespace LawInstance

/-- What an instance says. -/
def Law (ops : LatticeOps α) : LawInstance α → Prop
  | joinIdempotent a => ops.join a a = a
  | joinCommutative a b => ops.join a b = ops.join b a
  | joinAssociative a b c => ops.join (ops.join a b) c = ops.join a (ops.join b c)
  | meetIdempotent a => ops.meet a a = a
  | meetCommutative a b => ops.meet a b = ops.meet b a
  | meetAssociative a b c => ops.meet (ops.meet a b) c = ops.meet a (ops.meet b c)
  | joinAbsorbs a b => ops.join a (ops.meet a b) = a
  | meetAbsorbs a b => ops.meet a (ops.join a b) = a
  | orderAgreesWithJoin a b => ops.le a b ↔ ops.join a b = b
  | orderAgreesWithMeet a b => ops.le a b ↔ ops.meet a b = a
  | bottomBelow x => ops.le ops.bottom x
  | bottomUnit x => ops.join ops.bottom x = x
  | belowTop x => ops.le x ops.top
  | topUnit x => ops.meet ops.top x = x

variable {ops : LatticeOps α}

theorem holds_iff [BEq α] [LawfulBEq α] {l : LawInstance α} : l.holds ops ↔ l.Law ops := by
  cases l with
  | orderAgreesWithJoin | orderAgreesWithMeet =>
    rw [holds, Law, beq_iff_eq, Bool.eq_iff_iff, beq_iff_eq]
  | bottomBelow | belowTop => exact Iff.rfl
  | _ => exact beq_iff_eq

theorem law_of_isBoundedLattice (h : ops.IsBoundedLattice) (l : LawInstance α) : l.Law ops := by
  let := h.toLattice
  cases l with
  | joinIdempotent a => exact sup_idem a
  | joinCommutative a b => exact sup_comm a b
  | joinAssociative a b c => exact sup_assoc a b c
  | meetIdempotent a => exact inf_idem a
  | meetCommutative a b => exact inf_comm a b
  | meetAssociative a b c => exact inf_assoc a b c
  | joinAbsorbs a b => exact sup_inf_self
  | meetAbsorbs a b => exact inf_sup_self
  | orderAgreesWithJoin a b => exact (sup_eq_right (a := a) (b := b)).symm
  | orderAgreesWithMeet a b => exact (inf_eq_left (a := a) (b := b)).symm
  | bottomBelow x => exact h.bottom_le x
  | bottomUnit x => exact sup_eq_right.mpr (h.bottom_le x)
  | belowTop x => exact h.le_top x
  | topUnit x => exact inf_eq_right.mpr (h.le_top x)

end LawInstance

namespace LawSuite
variable [BEq α] {ops : LatticeOps α} {name : α → String} {samples : List α} {suite : LawSuite}

theorem check_eq_ok_iff : suite.check ops name samples = .ok () ↔
    suite.violations ops samples = [] := by
  unfold check
  split <;> simp_all

/-- Nothing can be found against a bounded lattice. -/
theorem check_of_isBoundedLattice [LawfulBEq α] (h : ops.IsBoundedLattice) :
    suite.check ops name samples = .ok () := by
  rw [check_eq_ok_iff, violations, List.filter_eq_nil_iff]
  intro l _
  simpa using LawInstance.holds_iff.mpr (l.law_of_isBoundedLattice h)

end LawSuite
end ConstFlow
