/-! # Candidate lattices

The operations of a bounded lattice, without the laws. Whether they form a lattice is a
question about them, which `ConstFlow.Lattice.Laws` answers on samples.
-/
namespace ConstFlow

structure LatticeOps (α : Type) where
  join : α → α → α
  meet : α → α → α
  le : α → α → Bool
  bottom : α
  top : α

/-- The operations given by square tables over `0 … n - 1`, rows first. An entry that a
table lacks reads as `0`, and in the order as `false`. -/
def LatticeOps.ofTables (join meet : List (List Nat)) (le : List (List Bool))
    (bottom top : Nat) : LatticeOps Nat where
  join a b := ((join[a]?.getD [])[b]?).getD 0
  meet a b := ((meet[a]?.getD [])[b]?).getD 0
  le a b := ((le[a]?.getD [])[b]?).getD false
  bottom := bottom
  top := top

end ConstFlow
