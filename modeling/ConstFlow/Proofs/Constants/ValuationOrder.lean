import ConstFlow.Constants.Valuation
import ConstFlow.Proofs.Collections.InsertionOrder
import ConstFlow.Proofs.Constants.ValueOrder
import Mathlib.Order.Bounds.Basic

/-! # The order on valuations

Valuations are ordered by the values that they give. Since the undefined value is never
stored, equality of valuations is agreement on all variables, and merging raises every
value to the least upper bound of the two.
-/
namespace ConstFlow.Valuation

@[simp] theorem get_empty (x : Variable) : empty.get x = .undefined := rfl

theorem get_congr (f : Valuation) {x y : Variable} (h : (x == y) = true) : f.get x = f.get y := by
  simp only [get, f.map.get?_congr h]

theorem get?_eq_some_iff {f : Valuation} {x : Variable} {v : Value} :
    f.map.get? x = some v ↔ f.get x = v ∧ v ≠ .undefined := by
  constructor
  · intro h
    obtain ⟨e, he, _, rfl⟩ := OrderedMap.exists_entry h
    exact ⟨by simp [get, h], f.defined e he⟩
  · rintro ⟨rfl, hv⟩
    unfold get at hv ⊢
    cases hx : f.map.get? x with
    | none => simp [hx] at hv
    | some v => rfl

/-- There is an entry exactly for what is not undefined. -/
theorem isSome_get?_iff {f : Valuation} {x : Variable} :
    (f.map.get? x).isSome = true ↔ f.get x ≠ .undefined := by
  rw [Option.isSome_iff_exists]
  constructor
  · rintro ⟨v, hv⟩
    obtain ⟨rfl, hne⟩ := get?_eq_some_iff.mp hv
    exact hne
  · exact fun hne => ⟨f.get x, get?_eq_some_iff.mpr ⟨rfl, hne⟩⟩

theorem get?_eq_of_get_eq {f g : Valuation} {x : Variable} (h : f.get x = g.get x) :
    f.map.get? x = g.map.get? x := by
  cases hg : g.map.get? x with
  | some v => exact get?_eq_some_iff.mpr (h ▸ get?_eq_some_iff.mp hg)
  | none =>
    cases hf : f.map.get? x with
    | none => rfl
    | some v =>
      have hgv := get?_eq_some_iff.mpr (h ▸ get?_eq_some_iff.mp hf)
      rw [hg] at hgv
      cases hgv

/-- Equal valuations are those that give every variable the same value. -/
theorem beq_iff_get (f g : Valuation) : (f == g) = true ↔ ∀ x, f.get x = g.get x := by
  change (f.map == g.map) = true ↔ _
  rw [OrderedMap.beq_iff_get?]
  constructor
  · intro h x
    simp only [get, h x]
  · exact fun h x => get?_eq_of_get_eq (h x)

theorem get_update (f : Valuation) (x y : Variable) (v : Value) :
    (f.update x v).1.get y = if x == y then v else f.get y := by
  unfold update
  split
  · rename_i h
    change ((f.map.erase x).get? y).getD .undefined = _
    rw [OrderedMap.get?_erase, h]
    by_cases hxy : x == y <;> simp [hxy, get]
  · change ((f.map.update x v).1.get? y).getD .undefined = _
    rw [eq_of_beq (OrderedMap.sameContent_update f.map x v y)]
    by_cases hxy : x == y <;> simp [hxy, get]

/-- Giving many variables one value leaves all others alone. -/
theorem get_foldl_update (l : List Variable) (v : Value) (f : Valuation) (x : Variable) :
    ((l.map fun y => (y, v)).foldl (fun f e => (f.update e.1 e.2).1) f).get x =
      if l.any (· == x) then v else f.get x := by
  induction l generalizing f with
  | nil => rfl
  | cons y rest ih =>
    rw [List.map_cons, List.foldl_cons, ih, get_update, List.any_cons]
    by_cases hy : y == x
    · simp [hy]
    · simp [hy]

instance : Preorder Valuation where
  le f g := ∀ x, f.get x ≤ g.get x
  le_refl f x := le_refl (f.get x)
  le_trans f g k hfg hgk x := (hfg x).trans (hgk x)

theorem le_iff {f g : Valuation} : f ≤ g ↔ ∀ x, f.get x ≤ g.get x := Iff.rfl

theorem beq_iff_le_le (f g : Valuation) : (f == g) = true ↔ f ≤ g ∧ g ≤ f := by
  rw [beq_iff_get]
  constructor
  · exact fun h => ⟨fun x => (h x).le, fun x => (h x).ge⟩
  · exact fun h x => le_antisymm (h.1 x) (h.2 x)

theorem empty_le (f : Valuation) : empty ≤ f := fun x => Value.undefined_le (f.get x)

/-- One variable's turn in a merge. -/
def raise (t : Valuation) (e : Variable × Value) : Valuation :=
  (t.update e.1 ((t.get e.1).join e.2)).1

theorem mergeInto_eq_foldl (f t : Valuation) : f.mergeInto t = f.entries.foldl raise t := rfl

theorem get_raise (t : Valuation) (e : Variable × Value) (x : Variable) :
    (t.raise e).get x = if e.1 == x then (t.get x).join e.2 else t.get x := by
  unfold raise
  rw [get_update]
  by_cases h : e.1 == x
  · simp [h, t.get_congr h]
  · simp [h]

/-- Each variable has its turn once, because the keys of a valuation are distinct. -/
theorem get_foldl_raise {l : List (Variable × Value)}
    (hl : l.Pairwise fun a b => (a.1 == b.1) = false) (t : Valuation) (x : Variable) :
    (l.foldl raise t).get x =
      (t.get x).join (((l.find? fun e => e.1 == x).map (·.2)).getD .undefined) := by
  induction l generalizing t with
  | nil => simp
  | cons e rest ih =>
    obtain ⟨he, hrest⟩ := List.pairwise_cons.mp hl
    rw [List.foldl_cons, ih hrest, get_raise]
    by_cases hx : e.1 == x
    · have hnone : rest.find? (fun d => d.1 == x) = none := by
        refine List.find?_eq_none.mpr fun d hd hdx => ?_
        have hed := BEq.trans hx (BEq.symm hdx)
        simp [he d hd] at hed
      simp [hx, hnone]
    · simp [hx]

theorem get_mergeInto (f t : Valuation) (x : Variable) :
    (f.mergeInto t).get x = (t.get x).join (f.get x) := by
  rw [mergeInto_eq_foldl]
  exact get_foldl_raise f.map.distinct t x

/-- A merge is a least upper bound. -/
theorem isLUB_mergeInto (f t : Valuation) : IsLUB {f, t} (f.mergeInto t) := by
  constructor
  · rintro g (rfl | rfl) x
    · rw [get_mergeInto]
      exact Value.le_join_right _ _
    · rw [get_mergeInto]
      exact Value.le_join_left _ _
  · intro u hu x
    rw [get_mergeInto]
    exact Value.join_le (hu (Or.inr rfl) x) (hu (Or.inl rfl) x)

end ConstFlow.Valuation
