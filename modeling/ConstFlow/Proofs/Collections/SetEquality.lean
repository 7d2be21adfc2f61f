import ConstFlow.Collections.OrderedSet
import ConstFlow.Proofs.Collections.MapEquality
import Mathlib.Order.Bounds.Basic

/-! # Equality and order of insertion-ordered sets

A set compares as the map from its elements to nothing, so equal sets are those with the
same elements. Inclusion orders sets up to that equality, and unions are least upper bounds.
-/
namespace ConstFlow.OrderedSet
variable {α : Type} [BEq α]

/-- The map that has the elements as its keys. -/
def toMap (s : OrderedSet α) : OrderedMap α Unit :=
  ⟨s.elems.map fun a => (a, ()), List.pairwise_map.mpr s.distinct⟩

theorem get?_toMap (s : OrderedSet α) (x : α) :
    s.toMap.get? x = if s.contains x then some () else none := by
  have h : (s.toMap.get? x).isSome = s.contains x := by
    rw [Bool.eq_iff_iff]
    simp [OrderedMap.get?, toMap, contains]
  rw [← h]
  cases s.toMap.get? x <;> rfl

theorem toMap_beq (s o : OrderedSet α) : (s.toMap == o.toMap) = (s == o) := by
  change (s.toMap.size == o.toMap.size &&
    s.toMap.entries.all fun e => o.toMap.get? e.1 == some e.2) =
      (s.size == o.size && s.elems.all o.contains)
  have hall : (fun a => o.toMap.get? a == some ()) = o.contains := by
    funext a
    rw [get?_toMap]
    cases o.contains a <;> rfl
  simp only [OrderedMap.size, size, toMap, List.length_map, List.all_map] at hall ⊢
  rw [← hall]
  rfl

instance : Preorder (OrderedSet α) where
  le s o := ∀ x, s.contains x = true → o.contains x = true
  le_refl _ _ h := h
  le_trans _ _ _ hst htu x h := htu x (hst x h)

theorem empty_le (s : OrderedSet α) : empty ≤ s := fun _ h => nomatch h

variable [EquivBEq α]

theorem contains_congr (s : OrderedSet α) {x y : α} (h : (x == y) = true) :
    s.contains x = s.contains y :=
  congrArg s.elems.any (funext fun _ => BEq.congr_right h)

/-- Equal sets are those with the same elements. -/
theorem beq_iff_contains (s o : OrderedSet α) :
    (s == o) = true ↔ ∀ x, s.contains x = o.contains x := by
  rw [← toMap_beq, OrderedMap.beq_iff_get?]
  refine forall_congr' fun x => ?_
  rw [get?_toMap, get?_toMap]
  cases s.contains x <;> cases o.contains x <;> simp

theorem contains_foldl_insert (l : List α) (s : OrderedSet α) (x : α) :
    (l.foldl insert s).contains x = (s.contains x || l.any (· == x)) := by
  induction l generalizing s with
  | nil => simp
  | cons a rest ih => rw [List.foldl_cons, ih, contains_insert, List.any_cons, Bool.or_left_comm,
      Bool.or_assoc]

theorem contains_union (s o : OrderedSet α) (x : α) :
    (s.union o).contains x = (s.contains x || o.contains x) :=
  contains_foldl_insert o.elems s x

theorem beq_iff_le_le (s o : OrderedSet α) : (s == o) = true ↔ s ≤ o ∧ o ≤ s := by
  rw [beq_iff_contains]
  constructor
  · exact fun h => ⟨fun x hx => h x ▸ hx, fun x hx => h x ▸ hx⟩
  · exact fun h x => Bool.eq_iff_iff.mpr ⟨h.1 x, h.2 x⟩

theorem isLUB_union (s o : OrderedSet α) : IsLUB {o, s} (s.union o) := by
  constructor
  · rintro t (rfl | rfl) x hx
    · rw [contains_union, hx, Bool.or_true]
    · rw [contains_union, hx, Bool.true_or]
  · intro u hu x hx
    rw [contains_union, Bool.or_eq_true] at hx
    rcases hx with hx | hx
    · exact hu (Or.inr rfl) x hx
    · exact hu (Or.inl rfl) x hx

end ConstFlow.OrderedSet
