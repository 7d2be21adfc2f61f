/-! # Registries

A registry numbers its items consecutively from zero in the order in which they are
added, so an item's number is its position and never changes.
-/
namespace ConstFlow

structure Registry (α : Type) where
  items : List α
  deriving Repr

namespace Registry
variable {α : Type}

def empty : Registry α := ⟨[]⟩

instance : Inhabited (Registry α) := ⟨empty⟩

def size (r : Registry α) : Nat := r.items.length

def isEmpty (r : Registry α) : Bool := r.items.isEmpty

/-- Number that the next item will get. -/
def nextId (r : Registry α) : Nat := r.items.length

/-- Adds an item, and returns its number. -/
def add (r : Registry α) (a : α) : Registry α × Nat := (⟨r.items ++ [a]⟩, r.nextId)

def get? (r : Registry α) (id : Nat) : Option α := r.items[id]?

/-- Replaces the item under a number in use; any other number changes nothing. -/
def set (r : Registry α) (id : Nat) (a : α) : Registry α := ⟨r.items.set id a⟩

/-- Items with their numbers. -/
def entries (r : Registry α) : List (Nat × α) := r.items.zipIdx.map fun e => (e.2, e.1)

theorem get?_set (r : Registry α) (i j : Nat) (a : α) :
    (r.set i a).get? j = if i = j then (r.get? j).map (fun _ => a) else r.get? j := by
  unfold get? set
  rw [List.getElem?_set]
  by_cases h : i = j
  · subst h
    by_cases hi : i < r.items.length
    · simp [hi]
    · simp [hi]
  · simp [h]

end Registry
end ConstFlow
