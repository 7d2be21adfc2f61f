import ConstFlow.Dataflow.Solver
import ConstFlow.Proofs.Dataflow.FactLaws
import ConstFlow.Proofs.Dataflow.Runs
import ConstFlow.Proofs.Flow.Adjacency

/-! # Analyses as worklist problems

The problem of an analysis over a flow graph is well formed in either direction, and a
solution is what a run leaves behind when its queue is empty.
-/
namespace ConstFlow.Analysis
variable {F : Type} {a : Analysis F} {g : FlowGraph}

theorem problem_of_forward (h : a.direction = .forward) : a.problem g =
    { origin := g.entry, seeds := g.nodes.filter (· != g.entry), sources := g.preds,
      targets := g.succs, boundary := a.boundary g, initial := a.initial, merge := a.merge,
      transfer := fun n => a.transfer (g.statement n) } := by
  simp only [problem, h]

theorem problem_of_backward (h : a.direction = .backward) : a.problem g =
    { origin := g.exit, seeds := (g.nodes.filter (· != g.exit)).reverse, sources := g.succs,
      targets := g.preds, boundary := a.boundary g, initial := a.initial, merge := a.merge,
      transfer := fun n => a.transfer (g.statement n) } := by
  simp only [problem, h]

theorem mem_seeds (a : Analysis F) (g : FlowGraph) {n : ℕ} :
    n ∈ (a.problem g).seeds ↔ n ∈ g.nodes ∧ n ≠ (a.problem g).origin := by
  cases h : a.direction with
  | forward => simp [problem_of_forward h]
  | backward => simp [problem_of_backward h]

theorem nodup_seeds (a : Analysis F) (g : FlowGraph) : (a.problem g).seeds.Nodup := by
  have hnodes : g.nodes.Nodup := List.nodup_range
  cases h : a.direction with
  | forward =>
    rw [problem_of_forward h]
    exact hnodes.filter _
  | backward =>
    rw [problem_of_backward h]
    exact List.nodup_reverse.mpr (hnodes.filter _)

theorem length_seeds (a : Analysis F) (g : FlowGraph) :
    (a.problem g).seeds.length = g.size - 1 := by
  cases h : a.direction with
  | forward =>
    rw [problem_of_forward h, g.nodes_filter_ne_entry, List.length_map, List.length_range]
  | backward =>
    rw [problem_of_backward h, g.nodes_filter_ne_exit, List.length_reverse, List.length_range]

theorem problem_wellFormed (a : Analysis F) (g : FlowGraph) : (a.problem g).WellFormed where
  mem_targets m n := by
    cases h : a.direction with
    | forward => simp only [problem_of_forward h, g.mem_preds_iff_mem_succs]
    | backward => simp only [problem_of_backward h, g.mem_preds_iff_mem_succs]
  seeded m n hn := by
    rw [mem_seeds, g.mem_nodes]
    cases h : a.direction with
    | forward =>
      simp only [problem_of_forward h] at hn ⊢
      obtain ⟨hpos, hlt⟩ := g.succ_range hn
      exact ⟨hlt, hpos.ne'⟩
    | backward =>
      simp only [problem_of_backward h] at hn ⊢
      have hlt := g.pred_range hn
      exact ⟨hlt.trans g.exit_lt_size, hlt.ne⟩
  origin_not_seeded h := ((a.mem_seeds g).mp h).2 rfl

theorem Lawful.problem [BEq F] [Preorder F] {effect : Statement → F → F} (h : a.Lawful effect)
    (g : FlowGraph) : (a.problem g).Lawful fun n => effect (g.statement n) :=
  h.reindex g.statement

theorem attempt_eq_run (a : Analysis F) (g : FlowGraph) (limit : ℕ) :
    a.attempt g limit = (a.problem g).run limit (a.problem g).start := by
  rw [attempt, Problem.loop_start_eq_run]

/-- An attempt succeeds exactly if it leaves no node in the queue. -/
theorem solveWithin_eq_ite (a : Analysis F) (g : FlowGraph) (limit : ℕ) : a.solveWithin g limit =
    if (a.attempt g limit).queue = [] then
      .ok (a.conclude g (a.attempt g limit) (a.attempt g limit).visits.length)
    else .error (.fuelExhausted limit) := by
  rw [attempt_eq_run, solveWithin, Problem.loop_start_eq_run]
  by_cases hdone : ((a.problem g).run limit (a.problem g).start).queue = []
  · simp only [if_pos hdone]
  · simp only [if_neg hdone]

theorem solveWithin_eq_ok {limit : ℕ} {r : Solution F} (h : a.solveWithin g limit = .ok r) :
    (a.attempt g limit).queue = [] ∧
      r = a.conclude g (a.attempt g limit) (a.attempt g limit).visits.length := by
  rw [solveWithin_eq_ite] at h
  split at h
  · rename_i hq
    exact ⟨hq, (Except.ok.inj h).symm⟩
  · cases h

theorem solveWithin_of_done {limit : ℕ} (h : (a.attempt g limit).queue = []) :
    a.solveWithin g limit =
      .ok (a.conclude g (a.attempt g limit) (a.attempt g limit).visits.length) := by
  rw [solveWithin_eq_ite, if_pos h]

theorem size_of_solveWithin {limit : ℕ} {r : Solution F} (h : a.solveWithin g limit = .ok r) :
    r.size = g.size := by
  obtain ⟨_, rfl⟩ := solveWithin_eq_ok h
  cases hd : a.direction <;> simp [conclude, hd]

/-- Every node of the graph that was solved has its facts. -/
theorem facts_of_solveWithin {limit : ℕ} {r : Solution F} (h : a.solveWithin g limit = .ok r)
    {n : ℕ} (hn : n ∈ g.nodes) :
    r.inFact? n = some (r.before.get n) ∧ r.outFact? n = some (r.after.get n) := by
  have hlt : n < r.size := size_of_solveWithin h ▸ g.mem_nodes.mp hn
  simp [Solution.inFact?, Solution.outFact?, hlt]

/-- What merging and transfer pass on along the arcs, against their direction, holds of a
backward solution. -/
theorem backward_facts (hd : a.direction = .backward) {limit : ℕ} {r : Solution F}
    (hr : a.solveWithin g limit = .ok r) (before after : ℕ → F → Prop)
    (hafter : ∀ n, after n a.initial) (hbefore : ∀ n, before n a.initial)
    (hboundary : before g.exit (a.boundary g))
    (hmerge : ∀ n, ∀ m ∈ g.succs n, ∀ f t, before m f → after n t → after n (a.merge f t))
    (htransfer : ∀ n f o, after n f → before n o → before n (a.transfer (g.statement n) f o).1)
    (n : ℕ) : after n (r.after.get n) ∧ before n (r.before.get n) := by
  obtain ⟨_, rfl⟩ := solveWithin_eq_ok hr
  have hp := a.problem_wellFormed g
  simp only [conclude, attempt_eq_run, hd]
  rw [problem_of_backward hd] at hp ⊢
  exact Problem.run_facts hp hafter hbefore hboundary (fun n _ => hmerge n)
    (fun n _ => htransfer n) limit n

/-- What merging and transfer pass on along the arcs holds of a forward solution. -/
theorem forward_facts (hd : a.direction = .forward) {limit : ℕ} {r : Solution F}
    (hr : a.solveWithin g limit = .ok r) (before after : ℕ → F → Prop)
    (hbefore : ∀ n, before n a.initial) (hafter : ∀ n, after n a.initial)
    (hboundary : after g.entry (a.boundary g))
    (hmerge : ∀ n, ∀ m ∈ g.preds n, ∀ f t, after m f → before n t → before n (a.merge f t))
    (htransfer : ∀ n ∈ g.nodes, n ≠ g.entry → ∀ f o, before n f → after n o →
      after n (a.transfer (g.statement n) f o).1)
    (n : ℕ) : before n (r.before.get n) ∧ after n (r.after.get n) := by
  have hseeds := fun n => a.mem_seeds g (n := n)
  obtain ⟨_, rfl⟩ := solveWithin_eq_ok hr
  have hp := a.problem_wellFormed g
  simp only [conclude, attempt_eq_run, hd]
  rw [problem_of_forward hd] at hp hseeds ⊢
  refine Problem.run_facts hp hbefore hafter hboundary (fun n _ => hmerge n) ?_ limit n
  intro n hn
  obtain ⟨hnode, hne⟩ := (hseeds n).mp hn
  exact htransfer n hnode hne

end ConstFlow.Analysis
