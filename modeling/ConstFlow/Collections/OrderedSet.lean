/-! # Finite sets that remember insertion order

Elements are compared with `==`. Inserting a present element changes nothing, a new
one goes last, and erasing closes the gap. Two sets are `==` when they have the same
elements, in whatever order.
-/
namespace ConstFlow

structure OrderedSet (α : Type) [BEq α] where
  elems : List α
  distinct : elems.Pairwise fun a b => (a == b) = false

namespace OrderedSet
variable {α : Type} [BEq α]

def empty : OrderedSet α := ⟨[], .nil⟩

instance : Inhabited (OrderedSet α) := ⟨empty⟩

def contains (s : OrderedSet α) (a : α) : Bool := s.elems.any fun b => b == a

def size (s : OrderedSet α) : Nat := s.elems.length

def isEmpty (s : OrderedSet α) : Bool := s.elems.isEmpty

theorem pairwise_append_new {l : List α} {a : α}
    (hl : l.Pairwise fun a b => (a == b) = false) (ha : l.any (fun b => b == a) = false) :
    (l ++ [a]).Pairwise fun a b => (a == b) = false := by
  refine List.pairwise_append.mpr ⟨hl, List.pairwise_singleton _ _, fun b hb c hc => ?_⟩
  rw [List.mem_singleton.mp hc]
  exact Bool.eq_false_iff.mpr (List.any_eq_false.mp ha b hb)

def insert (s : OrderedSet α) (a : α) : OrderedSet α :=
  if h : s.elems.any (fun b => b == a) = false then
    ⟨s.elems ++ [a], pairwise_append_new s.distinct h⟩
  else s

def erase (s : OrderedSet α) (a : α) : OrderedSet α :=
  ⟨s.elems.filter fun b => !(b == a), s.distinct.filter _⟩

/-- Adds the elements of `other` that are missing, in the other's order. -/
def union (s other : OrderedSet α) : OrderedSet α := other.elems.foldl insert s

def ofList (elems : List α) : OrderedSet α := elems.foldl insert empty

instance : BEq (OrderedSet α) where
  beq s o := s.size == o.size && s.elems.all o.contains

/-- Inserts `a`, and tells whether it is new. -/
def add (s : OrderedSet α) (a : α) : OrderedSet α × Bool := (s.insert a, !s.contains a)

/-- Erases `a`, and tells whether it was there. -/
def remove (s : OrderedSet α) (a : α) : OrderedSet α × Bool := (s.erase a, s.contains a)

/-- Forms the union, and tells whether the set grew. -/
def unionWith (s other : OrderedSet α) : OrderedSet α × Bool :=
  (s.union other, (s.union other).size != s.size)

/-- Replaces the set by `source`, and tells whether it changed. A set that is already
`==` to the source stays as it is, its order included. -/
def copyFrom (s source : OrderedSet α) : OrderedSet α × Bool :=
  if s == source then (s, false) else (source, true)

theorem elems_insert (s : OrderedSet α) (a : α) :
    (s.insert a).elems = if s.contains a then s.elems else s.elems ++ [a] := by
  unfold insert contains
  by_cases h : s.elems.any (fun b => b == a) = false
  · simp [h]
  · rw [Bool.not_eq_false] at h; simp [h]

theorem contains_insert [EquivBEq α] (s : OrderedSet α) (a x : α) :
    (s.insert a).contains x = (a == x || s.contains x) := by
  unfold contains
  rw [elems_insert]
  by_cases h : s.contains a
  · rw [if_pos h]
    by_cases hax : a == x
    · obtain ⟨b, hb, hba⟩ := List.any_eq_true.mp h
      rw [hax, Bool.true_or]
      exact List.any_eq_true.mpr ⟨b, hb, BEq.trans hba hax⟩
    · simp [hax]
  · simp [h, Bool.or_comm]

theorem contains_erase [EquivBEq α] (s : OrderedSet α) (a x : α) :
    (s.erase a).contains x = (!(a == x) && s.contains x) := by
  unfold contains erase
  rw [Bool.eq_iff_iff, List.any_filter]
  simp only [List.any_eq_true, Bool.and_eq_true, Bool.not_eq_true']
  constructor
  · rintro ⟨b, hb, hba, hbx⟩
    refine ⟨Bool.eq_false_iff.mpr fun h => ?_, b, hb, hbx⟩
    exact Bool.false_ne_true (hba.symm.trans (BEq.trans hbx (BEq.symm h)))
  · rintro ⟨hax, b, hb, hbx⟩
    refine ⟨b, hb, Bool.eq_false_iff.mpr fun h => ?_, hbx⟩
    exact Bool.false_ne_true (hax.symm.trans (BEq.trans (BEq.symm h) hbx))

/-- Text of a set: elements in order, in braces. -/
def render (showElem : α → String) (s : OrderedSet α) : String :=
  "\x7b" ++ ", ".intercalate (s.elems.map showElem) ++ "\x7d"

end OrderedSet
end ConstFlow
