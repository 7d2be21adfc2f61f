import ConstFlow.Proofs.Dataflow.Fuel
import Mathlib.Order.Basic

/-! # One pass

When every arc leads to a node that stands later among the seeds, a change puts nothing in the
queue that does not wait there already. The queue then is what is left of the seeds, and a run
visits each of them once, in order. Nothing is asked of merging and transfer.
-/
namespace ConstFlow

theorem enqueue_of_subset {queue nodes : List ℕ} (h : nodes ⊆ queue) :
    enqueue queue nodes = queue := by
  induction nodes with
  | nil => rfl
  | cons m rest ih =>
    obtain ⟨hm, hrest⟩ := List.cons_subset.mp h
    rw [enqueue_cons, if_pos hm, ih hrest]

namespace Problem
variable {F : Type} {p : Problem F} {r : ℕ → ℕ → Prop}

/-- The seeds are sorted by an order that all arcs follow. -/
structure Sorted (p : Problem F) (r : ℕ → ℕ → Prop) : Prop where
  seeds : p.seeds.Pairwise r
  target : ∀ m, ∀ n ∈ p.targets m, r m n

section
variable [Std.Asymm r] (hp : p.WellFormed) (h : p.Sorted r)
include hp h

/-- What the first node of the queue leads to waits behind it. -/
theorem Sorted.targets_subset {k n : ℕ} {rest : List ℕ} (hq : p.seeds.drop k = n :: rest) :
    p.targets n ⊆ rest := by
  intro m hm
  have hsplit : p.seeds = p.seeds.take k ++ n :: rest := by rw [← hq, List.take_append_drop]
  have hlater : r n m := h.target n m hm
  have hseed : m ∈ p.seeds.take k ++ n :: rest := hsplit ▸ hp.seeded n m hm
  have hsorted : (p.seeds.take k ++ n :: rest).Pairwise r := hsplit ▸ h.seeds
  rcases List.mem_append.mp hseed with hbefore | hrest
  · have hearlier : r m n := (List.pairwise_append.mp hsorted).2.2 m hbefore n List.mem_cons_self
    exact absurd hearlier (Std.Asymm.asymm n m hlater)
  · rcases List.mem_cons.mp hrest with rfl | hrest
    · exact absurd hlater (Std.Asymm.asymm m m hlater)
    · exact hrest

/-- Each turn visits the next seed. -/
theorem Sorted.run (k : ℕ) : (p.run k p.start).queue = p.seeds.drop k ∧
    (p.run k p.start).visits.map Visit.node = (p.seeds.take k).reverse := by
  induction k with
  | zero => exact ⟨p.queue_start.trans (enqueue_of_nodup h.seeds.nodup), rfl⟩
  | succ k ih =>
    obtain ⟨hqueue, hvisits⟩ := ih
    rw [run_succ]
    obtain ⟨hrest, hturn⟩ | ⟨n, rest, hrest, hturn⟩ := p.turn_cases (p.run k p.start)
    · rw [hqueue] at hrest
      have hle : p.seeds.length ≤ k := List.drop_eq_nil_iff.mp hrest
      rw [hturn, hqueue, hvisits, List.drop_of_length_le hle,
        List.drop_of_length_le (by omega), List.take_of_length_le hle,
        List.take_of_length_le (by omega)]
      exact ⟨rfl, rfl⟩
    · rw [hqueue] at hrest
      have hdrop : p.seeds.drop (k + 1) = rest.queue := by
        rw [← List.tail_drop, hrest, List.tail_cons]
      have hnext : p.seeds[k]? = some n := by
        rw [← List.head?_drop, hrest, List.head?_cons]
      have hwaiting : enqueue rest.queue (p.targets n) = rest.queue :=
        enqueue_of_subset (h.targets_subset hp hrest)
      rw [hturn, hdrop, List.take_add_one, hnext]
      constructor
      · rw [queue_advance, hwaiting, ite_self]
      · rw [visits_advance, List.map_cons, hvisits]
        simp [visit]

/-- With a visit for each seed, all of them have been visited and none has come back. -/
theorem Sorted.run_done {fuel : ℕ} (hfuel : p.seeds.length ≤ fuel) :
    (p.run fuel p.start).queue = [] ∧
      (p.run fuel p.start).visits.map Visit.node = p.seeds.reverse := by
  obtain ⟨hqueue, hvisits⟩ := h.run hp fuel
  rw [hqueue, hvisits, List.drop_of_length_le hfuel, List.take_of_length_le hfuel]
  exact ⟨rfl, rfl⟩

end
end Problem

namespace Analysis
variable {F : Type} {a : Analysis F} {g : FlowGraph} {r : ℕ → ℕ → Prop}

theorem sorted_of_forward (hd : a.direction = .forward)
    (hg : ∀ m, ∀ n ∈ g.succs m, m < n) : (a.problem g).Sorted (· < ·) := by
  rw [problem_of_forward hd]
  exact ⟨List.pairwise_lt_range.filter _, hg⟩

theorem sorted_of_backward (hd : a.direction = .backward)
    (hg : ∀ m, ∀ n ∈ g.succs m, m < n) : (a.problem g).Sorted (· > ·) := by
  rw [problem_of_backward hd]
  refine ⟨List.pairwise_reverse.mpr (List.pairwise_lt_range.filter _), ?_⟩
  intro n m hm
  exact hg m n (g.mem_preds_iff_mem_succs.mp hm)

/-- One visit for each seed is enough for a solution, and none is spared. -/
theorem exists_solution_of_sorted [Std.Asymm r] (h : (a.problem g).Sorted r) {limit : ℕ}
    (hlimit : g.size - 1 ≤ limit) :
    ∃ s, a.solveWithin g limit = .ok s ∧ s.iterations = g.size - 1 := by
  rw [← length_seeds a g] at hlimit ⊢
  obtain ⟨hqueue, hvisits⟩ := h.run_done (a.problem_wellFormed g) hlimit
  rw [← attempt_eq_run] at hqueue hvisits
  have hlength := congrArg List.length hvisits
  rw [List.length_map, List.length_reverse] at hlength
  have hsolution := solveWithin_of_done hqueue
  exact ⟨_, hsolution, (iterations_of_solveWithin hsolution).trans hlength⟩

/-- A seed waits until its turn has come. -/
theorem fuelExhausted_of_sorted [Std.Asymm r] (h : (a.problem g).Sorted r) {limit : ℕ}
    (hlimit : limit < g.size - 1) : a.solveWithin g limit = .error (.fuelExhausted limit) := by
  rw [← length_seeds a g] at hlimit
  obtain ⟨hqueue, _⟩ := h.run (a.problem_wellFormed g) limit
  refine solveWithin_eq_error_iff.mpr ⟨rfl, ?_⟩
  rw [attempt_eq_run, hqueue]
  exact fun hnil => Nat.not_lt.mpr (List.drop_eq_nil_iff.mp hnil) hlimit

end Analysis
end ConstFlow
