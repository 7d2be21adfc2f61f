import Std.Data.TreeMap

/-! # Tables

A table holds one cell for every natural number. A cell that was never set holds the
table's default.
-/
namespace ConstFlow

structure Table (α : Type) where
  default : α
  cells : Std.TreeMap Nat α

namespace Table
variable {α : Type}

def const (a : α) : Table α := ⟨a, ∅⟩

def get (t : Table α) (n : Nat) : α := t.cells.getD n t.default

def set (t : Table α) (n : Nat) (a : α) : Table α := { t with cells := t.cells.insert n a }

@[simp] theorem get_const (a : α) (n : Nat) : (const a).get n = a := rfl

theorem get_set (t : Table α) (n m : Nat) (a : α) :
    (t.set n a).get m = if n = m then a else t.get m := by
  simp [get, set, Std.TreeMap.getD_insert]

end Table
end ConstFlow
