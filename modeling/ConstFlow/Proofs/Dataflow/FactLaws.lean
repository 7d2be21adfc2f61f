import ConstFlow.Dataflow.Analysis
import ConstFlow.Dataflow.Problem
import Mathlib.Order.Bounds.Basic

/-! # Laws of facts

The solver relies on laws that an analysis has to supply. Facts are ordered up to `==`
with the initial fact least, merging forms least upper bounds, and a transfer computes a
monotone effect of its input and tells truly whether its output changed. The old output
may show in the new one only up to `==`.
-/
namespace ConstFlow
variable {ι F : Type} [BEq F] [Preorder F]

structure FactLaws (initial : F) (merge : F → F → F) (transfer : ι → F → F → F × Bool)
    (effect : ι → F → F) : Prop where
  beq_iff : ∀ f g : F, (f == g) = true ↔ f ≤ g ∧ g ≤ f
  initial_le : ∀ f, initial ≤ f
  isLUB_merge : ∀ f t, IsLUB {f, t} (merge f t)
  effect_mono : ∀ i, Monotone (effect i)
  transfer_beq : ∀ i input output, ((transfer i input output).1 == effect i input) = true
  changed_iff : ∀ i input output, (transfer i input output).2 = true ↔
    ((transfer i input output).1 == output) = false

/-- The laws for all statements. -/
abbrev Analysis.Lawful (a : Analysis F) (effect : Statement → F → F) : Prop :=
  FactLaws a.initial a.merge a.transfer effect

/-- The laws for all nodes of one graph. -/
abbrev Problem.Lawful (p : Problem F) (effect : ℕ → F → F) : Prop :=
  FactLaws p.initial p.merge p.transfer effect

/-- Merges the facts of some places into a target, one after the other. -/
def mergeAll {κ : Type} (merge : F → F → F) (fact : κ → F) (places : List κ) (target : F) : F :=
  places.foldl (fun t k => merge (fact k) t) target

namespace FactLaws
variable {initial : F} {merge : F → F → F} {transfer : ι → F → F → F × Bool} {effect : ι → F → F}

/-- Laws for one kind of index serve for every index that is read as one of that kind. -/
theorem reindex (h : FactLaws initial merge transfer effect) {κ : Type} (read : κ → ι) :
    FactLaws initial merge (fun k => transfer (read k)) (fun k => effect (read k)) where
  beq_iff := h.beq_iff
  initial_le := h.initial_le
  isLUB_merge := h.isLUB_merge
  effect_mono k := h.effect_mono (read k)
  transfer_beq k := h.transfer_beq (read k)
  changed_iff k := h.changed_iff (read k)

/-- A transfer may put the effect in the place of its output whenever the two are not equal. -/
theorem of_replacing (beq_iff : ∀ f g : F, (f == g) = true ↔ f ≤ g ∧ g ≤ f)
    (initial_le : ∀ f, initial ≤ f) (isLUB_merge : ∀ f t, IsLUB {f, t} (merge f t))
    (effect_mono : ∀ i, Monotone (effect i)) :
    FactLaws initial merge (fun i input output =>
      if output == effect i input then (output, false) else (effect i input, true)) effect where
  beq_iff := beq_iff
  initial_le := initial_le
  isLUB_merge := isLUB_merge
  effect_mono := effect_mono
  transfer_beq i input output := by
    split
    · assumption
    · exact (beq_iff _ _).mpr ⟨le_rfl, le_rfl⟩
  changed_iff i input output := by
    split
    · simpa using (beq_iff output output).mpr ⟨le_rfl, le_rfl⟩
    · rename_i h
      rw [beq_iff, and_comm, ← beq_iff] at h
      simpa using h

variable (h : FactLaws initial merge transfer effect)
include h

theorem le_of_beq {f g : F} (hfg : (f == g) = true) : f ≤ g := ((h.beq_iff f g).mp hfg).1

theorem ge_of_beq {f g : F} (hfg : (f == g) = true) : g ≤ f := ((h.beq_iff f g).mp hfg).2

theorem beq_of_le_of_le {f g : F} (hfg : f ≤ g) (hgf : g ≤ f) : (f == g) = true :=
  (h.beq_iff f g).mpr ⟨hfg, hgf⟩

theorem transfer_le (i : ι) (input output : F) : (transfer i input output).1 ≤ effect i input :=
  h.le_of_beq (h.transfer_beq i input output)

theorem le_transfer (i : ι) (input output : F) : effect i input ≤ (transfer i input output).1 :=
  h.ge_of_beq (h.transfer_beq i input output)

/-- A transfer that claims no change has kept its output, up to `==`. -/
theorem transfer_le_of_unchanged {i : ι} {input output : F}
    (hc : (transfer i input output).2 = false) : (transfer i input output).1 ≤ output := by
  cases hb : (transfer i input output).1 == output with
  | true => exact h.le_of_beq hb
  | false => simp [(h.changed_iff i input output).mpr hb] at hc

theorem le_merge (f t : F) : f ≤ merge f t := (h.isLUB_merge f t).1 (by simp)

theorem target_le_merge (f t : F) : t ≤ merge f t := (h.isLUB_merge f t).1 (by simp)

theorem merge_le {f t u : F} (hf : f ≤ u) (ht : t ≤ u) : merge f t ≤ u := by
  apply (h.isLUB_merge f t).2
  rintro g (rfl | rfl)
  · exact hf
  · exact ht

/-- Merging some facts into a target gives the least upper bound of all of them. -/
theorem isLUB_mergeAll {κ : Type} (fact : κ → F) (places : List κ) (target : F) :
    IsLUB (insert target (fact '' {k | k ∈ places})) (mergeAll merge fact places target) := by
  induction places generalizing target with
  | nil => simp [mergeAll]
  | cons k rest ih =>
    obtain ⟨hupper, hleast⟩ := ih (merge (fact k) target)
    have hmerged := hupper (Set.mem_insert _ _)
    constructor
    · rintro f (rfl | ⟨j, hj, rfl⟩)
      · exact (h.target_le_merge (fact k) f).trans hmerged
      · rcases List.mem_cons.mp hj with rfl | hj
        · exact (h.le_merge (fact j) target).trans hmerged
        · exact hupper (Set.mem_insert_of_mem _ ⟨j, hj, rfl⟩)
    · intro u hu
      apply hleast
      rintro f (rfl | ⟨j, hj, rfl⟩)
      · exact h.merge_le (hu (Or.inr ⟨k, List.mem_cons_self, rfl⟩)) (hu (Set.mem_insert _ _))
      · exact hu (Or.inr ⟨j, List.mem_cons_of_mem _ hj, rfl⟩)

theorem target_le_mergeAll {κ : Type} (fact : κ → F) (places : List κ) (target : F) :
    target ≤ mergeAll merge fact places target :=
  (h.isLUB_mergeAll fact places target).1 (Set.mem_insert _ _)

theorem le_mergeAll {κ : Type} {fact : κ → F} {places : List κ} {k : κ} (hk : k ∈ places)
    (target : F) : fact k ≤ mergeAll merge fact places target :=
  (h.isLUB_mergeAll fact places target).1 (Or.inr ⟨k, hk, rfl⟩)

theorem mergeAll_le {κ : Type} {fact : κ → F} {places : List κ} {target u : F}
    (ht : target ≤ u) (hp : ∀ k ∈ places, fact k ≤ u) : mergeAll merge fact places target ≤ u := by
  apply (h.isLUB_mergeAll fact places target).2
  rintro f (rfl | ⟨k, hk, rfl⟩)
  · exact ht
  · exact hp k hk

/-- Neither the order of merges nor repetitions among them matter. -/
theorem mergeAll_beq {κ : Type} (fact : κ → F) {places places' : List κ}
    (hp : ∀ k, k ∈ places ↔ k ∈ places') (target : F) :
    (mergeAll merge fact places target == mergeAll merge fact places' target) = true := by
  apply h.beq_of_le_of_le
  · exact h.mergeAll_le (h.target_le_mergeAll fact places' target)
      fun k hk => h.le_mergeAll ((hp k).mp hk) target
  · exact h.mergeAll_le (h.target_le_mergeAll fact places target)
      fun k hk => h.le_mergeAll ((hp k).mpr hk) target

end FactLaws
end ConstFlow
