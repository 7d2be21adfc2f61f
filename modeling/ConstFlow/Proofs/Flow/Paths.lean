import ConstFlow.Proofs.Flow.Adjacency

/-! # Paths

A path is given with the nodes that control leaves on its way, the last node not being one
of them. Paths grow at either end.
-/
namespace ConstFlow

namespace Statement

/-- Whether the statement reads `x`. -/
def reads (s : Statement) (x : Variable) : Bool := s.uses.any (· == x)

/-- Whether the statement assigns `x`. -/
def assigns (s : Statement) (x : Variable) : Bool := s.assigned?.any (· == x)

theorem ne_nop_of_assigns {s : Statement} {x : Variable} (h : s.assigns x = true) : s ≠ .nop := by
  rintro rfl
  cases h

end Statement

namespace FlowGraph

/-- Control may pass from `m` to `n` by way of `ms`, which begins with `m` and ends before `n`. -/
inductive Path (g : FlowGraph) : ℕ → List ℕ → ℕ → Prop
  | nil (n : ℕ) : Path g n [] n
  | cons {m k n : ℕ} {ms : List ℕ} : k ∈ g.succs m → Path g k ms n → Path g m (m :: ms) n

/-- Control may come from `m` to `n` along one arc or more. -/
def Reaches (g : FlowGraph) (m n : ℕ) : Prop := ∃ ms, ms ≠ [] ∧ g.Path m ms n

/-- A path on which no statement assigns `x`, whatever the last node does. -/
def ClearPath (g : FlowGraph) (x : Variable) (m : ℕ) (ms : List ℕ) (n : ℕ) : Prop :=
  g.Path m ms n ∧ ∀ k ∈ ms, (g.statement k).assigns x = false

variable {g : FlowGraph} {m k n : ℕ} {ms : List ℕ} {x : Variable}

theorem path_concat_iff : g.Path m (ms ++ [k]) n ↔ g.Path m ms k ∧ n ∈ g.succs k := by
  constructor
  · intro h
    induction ms generalizing m with
    | nil =>
      obtain _ | ⟨hj, hpath⟩ := h
      obtain _ | _ := hpath
      exact ⟨.nil k, hj⟩
    | cons l rest ih =>
      obtain _ | ⟨hj, hpath⟩ := h
      obtain ⟨hrest, hn⟩ := ih hpath
      exact ⟨.cons hj hrest, hn⟩
  · rintro ⟨hpath, hn⟩
    induction hpath with
    | nil j => exact .cons hn (.nil n)
    | cons hj _ ih => exact .cons hj (ih hn)

theorem Path.reaches (h : g.Path m ms k) (hn : n ∈ g.succs k) : g.Reaches m n :=
  ⟨ms ++ [k], by simp, path_concat_iff.mpr ⟨h, hn⟩⟩

theorem Reaches.concat (h : g.Reaches m k) (hn : n ∈ g.succs k) : g.Reaches m n := by
  obtain ⟨ms, _, hpath⟩ := h
  exact hpath.reaches hn

theorem Reaches.cons (hk : k ∈ g.succs m) (h : g.Reaches k n) : g.Reaches m n := by
  obtain ⟨ms, _, hpath⟩ := h
  exact ⟨m :: ms, List.cons_ne_nil m ms, .cons hk hpath⟩

/-- A path that ends in nodes among which are all their predecessors has not come from elsewhere. -/
theorem Path.start_mem {R : ℕ → Prop} (hR : ∀ k, R k → ∀ j ∈ g.preds k, R j)
    (h : g.Path m ms n) (hn : R n) : R m := by
  induction h with
  | nil n => exact hn
  | cons hk _ ih => exact hR _ (ih hn) _ (g.mem_preds_iff_mem_succs.mpr hk)

theorem ClearPath.nil (x : Variable) (n : ℕ) : g.ClearPath x n [] n :=
  ⟨.nil n, by simp⟩

theorem ClearPath.cons (hm : (g.statement m).assigns x = false) (hk : k ∈ g.succs m)
    (h : g.ClearPath x k ms n) : g.ClearPath x m (m :: ms) n :=
  ⟨.cons hk h.1, List.forall_mem_cons.mpr ⟨hm, h.2⟩⟩

end FlowGraph
end ConstFlow
