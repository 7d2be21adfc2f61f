import ConstFlow.Proofs.Flow.Paths
import Mathlib.Data.Set.Finite.Lattice
import Mathlib.Order.OrderIsoNat

/-! # Cycles

A node lies on a cycle if control may come back to it. Every node on a cycle is followed by
another one on a cycle. Without cycles the arcs are well founded, because a graph has finitely
many nodes and a way on without end would come to one of them twice.
-/
namespace ConstFlow.FlowGraph
variable {g : FlowGraph}

theorem Reaches.exists_succ {n : ℕ} (h : g.Reaches n n) : ∃ k ∈ g.succs n, g.Reaches k k := by
  obtain ⟨ms, hne, hpath⟩ := h
  obtain _ | ⟨hk, hback⟩ := hpath
  · exact absurd rfl hne
  · exact ⟨_, hk, hback.reaches hk⟩

/-- A walk of which every next node is a successor comes from each node to all later ones. -/
theorem reaches_of_walk {walk : ℕ → ℕ} (h : ∀ i, walk (i + 1) ∈ g.succs (walk i)) {i j : ℕ}
    (hij : i < j) : g.Reaches (walk i) (walk j) := by
  induction j, hij using Nat.le_induction with
  | base => exact (Path.nil (walk i)).reaches (h i)
  | succ j _ ih => exact ih.concat (h j)

theorem wellFounded_succs (h : ∀ n, ¬g.Reaches n n) : WellFounded fun m n => m ∈ g.succs n := by
  rw [wellFounded_iff_isEmpty_descending_chain]
  refine ⟨fun ⟨walk, hwalk⟩ => ?_⟩
  have hinside : ∀ i, walk i ∈ Set.Iio g.exit := fun i =>
    g.pred_range (g.mem_preds_iff_mem_succs.mpr (hwalk i))
  obtain ⟨i, j, hij, hsame⟩ :=
    Set.Finite.exists_lt_map_eq_of_forall_mem hinside (Set.finite_Iio g.exit)
  have hreaches := reaches_of_walk hwalk hij
  rw [← hsame] at hreaches
  exact h (walk i) hreaches

/-- Control does not come back where every arc leads to a higher rank. -/
theorem not_reaches_of_rank (rank : ℕ → ℕ) (h : ∀ m, ∀ n ∈ g.succs m, rank m < rank n) (n : ℕ) :
    ¬g.Reaches n n := by
  intro hcycle
  have hclimbs : ∀ {m ms n}, g.Path m ms n → ms ≠ [] → rank m < rank n := by
    intro m ms n hpath
    induction hpath with
    | nil => exact fun hne => absurd rfl hne
    | cons hk hrest ih =>
      intro _
      have hfirst := h _ _ hk
      obtain _ | _ := hrest
      · exact hfirst
      · exact hfirst.trans (ih (List.cons_ne_nil _ _))
  obtain ⟨ms, hne, hpath⟩ := hcycle
  exact Nat.lt_irrefl _ (hclimbs hpath hne)

end ConstFlow.FlowGraph
