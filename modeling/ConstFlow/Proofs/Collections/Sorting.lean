import Mathlib.Data.List.Destutter
import Mathlib.Data.List.Nodup
import Mathlib.Data.List.Sort

/-! # Sorting without repeats

In a sorted list equal numbers stand side by side, so that keeping a number only where it differs
from the one before keeps every number once. A search of the range below a bound finds the same
numbers in the same order.
-/
namespace ConstFlow
variable {xs : List ℕ} {n : ℕ}

theorem mem_destutter'_ne {a : ℕ} : n ∈ xs.destutter' (· ≠ ·) a ↔ n ∈ a :: xs := by
  induction xs generalizing a with
  | nil => rfl
  | cons b rest ih =>
    by_cases hab : a ≠ b
    · rw [List.destutter'_cons_pos rest hab, List.mem_cons, ih, ← List.mem_cons]
    · obtain rfl : a = b := not_not.mp hab
      rw [List.destutter'_cons_neg rest hab, ih]
      simp

theorem mem_destutter_ne : n ∈ xs.destutter (· ≠ ·) ↔ n ∈ xs := by
  cases xs with
  | nil => rfl
  | cons a rest => exact mem_destutter'_ne

theorem pairwise_lt_destutter'_ne {a : ℕ} (h : (a :: xs).Pairwise (· ≤ ·)) :
    (xs.destutter' (· ≠ ·) a).Pairwise (· < ·) := by
  induction xs generalizing a with
  | nil => exact List.pairwise_singleton _ a
  | cons b rest ih =>
    obtain ⟨ha, hrest⟩ := List.pairwise_cons.mp h
    by_cases hab : a ≠ b
    · rw [List.destutter'_cons_pos rest hab]
      have hlt : a < b := lt_of_le_of_ne (ha b List.mem_cons_self) hab
      refine List.pairwise_cons.mpr ⟨fun m hm => ?_, ih hrest⟩
      rcases List.mem_cons.mp (mem_destutter'_ne.mp hm) with rfl | hm
      · exact hlt
      · exact hlt.trans_le ((List.pairwise_cons.mp hrest).1 m hm)
    · obtain rfl : a = b := not_not.mp hab
      rw [List.destutter'_cons_neg rest hab]
      exact ih hrest

theorem pairwise_lt_destutter_ne (h : xs.Pairwise (· ≤ ·)) :
    (xs.destutter (· ≠ ·)).Pairwise (· < ·) := by
  cases xs with
  | nil => exact .nil
  | cons a rest => exact pairwise_lt_destutter'_ne h

/-- The order in which the numbers were collected is not seen. -/
theorem filter_range_eq_sorted {ys : List ℕ} {bound : ℕ} (hperm : ys.Perm xs)
    (h : ∀ x ∈ xs, x < bound) :
    (List.range bound).filter xs.contains = (ys.mergeSort (· ≤ ·)).destutter (· ≠ ·) := by
  have hsorted : (ys.mergeSort (· ≤ ·)).Pairwise (· ≤ ·) := ys.pairwise_mergeSort' (· ≤ ·)
  have hleft : ((List.range bound).filter xs.contains).Pairwise (· < ·) :=
    List.pairwise_lt_range.filter _
  have hright := pairwise_lt_destutter_ne hsorted
  refine List.Perm.eq_of_pairwise (fun a b _ _ hab hba => absurd hab (Nat.lt_asymm hba)) hleft
    hright ?_
  refine (List.perm_ext_iff_of_nodup (hleft.imp ne_of_lt) (hright.imp ne_of_lt)).mpr fun n => ?_
  rw [List.mem_filter, List.mem_range, List.contains_iff_mem, mem_destutter_ne,
    List.mem_mergeSort, hperm.mem_iff]
  exact and_iff_right_of_imp (h n)

end ConstFlow
