import ConstFlow.Proofs.Constants.Monotonicity
import ConstFlow.Proofs.Dataflow.LeastSolution
import ConstFlow.Proofs.Flow.Paths
import Mathlib.Tactic.IntervalCases

/-! # What flows into a node

The facts before a node depend on the statements from which it can be reached, and on no
others. The visits of two runs need not correspond, since all statements share one queue. But
the nodes that lead to a node lead to each other's predecessors too, so on them each run stays
below the solution of the other.
-/
namespace ConstFlow

namespace FlowGraph

/-- Two graphs have the same nodes and the same arcs between them, whatever stands at a node
and whatever an arc is for. -/
structure SameShape (g g' : FlowGraph) : Prop where
  size_eq : g.size = g'.size
  mem_succs_iff : ∀ m n, n ∈ g.succs m ↔ n ∈ g'.succs m

namespace SameShape
variable {g g' : FlowGraph} {m n : ℕ}

theorem symm (h : g.SameShape g') : g'.SameShape g :=
  ⟨h.size_eq.symm, fun m n => (h.mem_succs_iff m n).symm⟩

theorem nodes_eq (h : g.SameShape g') : g.nodes = g'.nodes := by
  rw [nodes, nodes, h.size_eq]

theorem mem_preds_iff (h : g.SameShape g') : m ∈ g.preds n ↔ m ∈ g'.preds n := by
  rw [mem_preds_iff_mem_succs, mem_preds_iff_mem_succs, h.mem_succs_iff]

theorem path (h : g.SameShape g') {ms : List ℕ} (hpath : g.Path m ms n) : g'.Path m ms n := by
  induction hpath with
  | nil n => exact .nil n
  | cons hk _ ih => exact .cons ((h.mem_succs_iff _ _).mp hk) ih

theorem reaches (h : g.SameShape g') (hreaches : g.Reaches m n) : g'.Reaches m n := by
  obtain ⟨ms, hne, hpath⟩ := hreaches
  exact ⟨ms, hne, h.path hpath⟩

end SameShape
end FlowGraph

namespace Analysis
variable {F : Type} [BEq F] [Preorder F] {a : Analysis F} {effect : Statement → F → F}
variable {g g' : FlowGraph} {effect' : ℕ → F → F} {initial' boundary' : F} {before' after' : ℕ → F}
variable (hl : a.Lawful effect) (hd : a.direction = .forward) {limit : ℕ} {r : Solution F}
variable (hr : a.solveWithin g limit = .ok r) (hshape : g.SameShape g')
variable (h' : IsLeastSolution g'.nodes g'.entry g'.preds effect' initial' boundary' before' after')
variable (hboundary : a.boundary g ≤ boundary')
include hl hd hr hshape h' hboundary

/-- In a region into which nothing flows from outside, a run stays below the solution for other
statements that do the same there. -/
theorem Lawful.after_le_of_region {R : ℕ → Prop}
    (hR : ∀ n, R n → ∀ m ∈ g.preds n, R m)
    (hsame : ∀ n, R n → effect (g.statement n) = effect' n) {n : ℕ} (hn : R n) :
    r.after.get n ≤ after' n := by
  have hp := a.problem_wellFormed g
  have hl := hl.problem g
  have hseeds := fun n => a.mem_seeds g (n := n)
  obtain ⟨_, rfl⟩ := solveWithin_eq_ok hr
  simp only [conclude, attempt_eq_run, hd]
  rw [problem_of_forward hd] at hp hl hseeds ⊢
  have horigin : a.boundary g ≤ after' g.entry := h'.output_origin ▸ hboundary
  have hclosed : ∀ n ∈ g.nodes.filter (· != g.entry), R n →
      (∀ m ∈ g.preds n, after' m ≤ before' n) ∧
        effect (g.statement n) (before' n) ≤ after' n := by
    intro n hseed hn
    obtain ⟨hnode, hne⟩ := (hseeds n).mp hseed
    rw [hshape.nodes_eq] at hnode
    constructor
    · intro m hm
      exact h'.output_le_input hnode hne (hshape.mem_preds_iff.mp hm)
    · rw [hsame n hn]
      exact hl.ge_of_beq (h'.output_beq n hnode hne)
  exact (Problem.run_le hl hp hR horigin hclosed limit hn).2

/-- What flows into a node comes from the nodes that reach it. -/
theorem Lawful.before_le_of_inflow {n : ℕ} (hn : n ∈ g.nodes)
    (hsame : ∀ m, g.Reaches m n → effect (g.statement m) = effect' m) :
    r.before.get n ≤ before' n := by
  have h := hl.isLeastSolution_of_forward hd hr
  by_cases hne : n = g.entry
  · subst hne
    rw [h.input_origin]
    exact hl.initial_le _
  have hn' : n ∈ g'.nodes := hshape.nodes_eq ▸ hn
  apply (h.isLUB_input n hn hne).2
  rintro f ⟨m, hm, rfl⟩
  have hreaches : g.Reaches m n := (FlowGraph.Path.nil m).reaches (g.mem_preds_iff_mem_succs.mp hm)
  have hafter : r.after.get m ≤ after' m := by
    refine hl.after_le_of_region hd hr hshape h' hboundary ?_ hsame hreaches
    intro k hk j hj
    exact hk.cons (g.mem_preds_iff_mem_succs.mp hj)
  exact hafter.trans (h'.output_le_input hn' hne (hshape.mem_preds_iff.mp hm))

end Analysis

namespace ConstantPropagation

/-- Solutions over graphs of one shape and with one boundary agree before a node, if the statements
at all nodes that reach it are identical. Their variables then have the same names and types too,
which is more than `==`, as that compares ids only. -/
theorem before_determined_by_inflow {settings settings' : Settings} {g g' : FlowGraph}
    (hshape : g.SameShape g') (hboundary : (boundary g == boundary g') = true)
    {r r' : Solution Valuation} (hr : (analysis settings).solve g = .ok r)
    (hr' : (analysis settings').solve g' = .ok r') {n : ℕ} (hn : n ∈ g.nodes)
    (hsame : ∀ m, g.Reaches m n → g.statement m = g'.statement m) :
    ∃ f f', r.inFact? n = some f ∧ r'.inFact? n = some f' ∧ (f == f') = true := by
  have hl := lawful settings
  have hl' := lawful settings'
  have hn' : n ∈ g'.nodes := hshape.nodes_eq ▸ hn
  have hin := (Analysis.facts_of_solveWithin hr hn).1
  have hin' := (Analysis.facts_of_solveWithin hr' hn').1
  refine ⟨_, _, hin, hin', hl.beq_of_le_of_le ?_ ?_⟩
  · refine hl.before_le_of_inflow rfl hr hshape (hl'.isLeastSolution_of_forward rfl hr')
      (hl.le_of_beq hboundary) hn fun m hm => ?_
    rw [hsame m hm]
  · refine hl'.before_le_of_inflow rfl hr' hshape.symm (hl.isLeastSolution_of_forward rfl hr)
      (hl.ge_of_beq hboundary) hn' fun m hm => ?_
    rw [hsame m (hshape.symm.reaches hm)]

/-- Two loops, the second of which sets `y` to `e` in each round. -/
def twoLoops (e : Expression) : Procedure :=
  let (n, x, y) := (Sample.int 0 "n", Sample.int 1 "x", Sample.int 2 "y")
  (Procedure.named "loops").edits [Sample.declareInt "n" true, Sample.declareInt "x",
    Sample.declareInt "y", .newLabel, .newLabel, Sample.assign y (.int 0),
    Sample.assign x (.int 1), .bind ⟨0⟩, Sample.assign x (.binary ⟨x, x, .arithmetic .mul⟩),
    .push (.branch ⟨⟨x, n, .comparison .lt⟩, ⟨0⟩⟩), .bind ⟨1⟩, Sample.assign y e,
    .push (.branch ⟨⟨y, n, .comparison .lt⟩, ⟨1⟩⟩), .push (.ret (some y))]

def twoLoopsGraph (e : Expression) : FlowGraph :=
  ⟨twoLoops e, (twoLoops e).arcs.toOption.getD [], rfl⟩

/-- The head of the first loop, whatever the second one does, although one run takes ten visits
and the other fourteen. -/
theorem first_loop_head_sees_nothing_of_second :
    let sum := Expression.binary ⟨Sample.int 2 "y", Sample.int 1 "x", .arithmetic .add⟩
    let g := twoLoopsGraph (.int 7)
    let g' := twoLoopsGraph sum
    g.SameShape g' ∧ (boundary g == boundary g') = true ∧
    (∀ m, g.Reaches m 3 → g.statement m = g'.statement m) ∧
    ∃ r r', analysis.solve g = .ok r ∧ analysis.solve g' = .ok r' ∧
      r.iterations = 10 ∧ r'.iterations = 14 ∧
      ∃ f f', r.inFact? 3 = some f ∧ r'.inFact? 3 = some f' ∧ (f == f') = true := by
  intro sum g g'
  have hshape : g.SameShape g' := ⟨rfl, fun m n => Iff.rfl⟩
  have hboundary : (boundary g == boundary g') = true := by decide
  have hclosed : ∀ k ≤ 4, ∀ j ∈ g.preds k, j ≤ 4 := by decide
  have hsame : ∀ m, g.Reaches m 3 → g.statement m = g'.statement m := by
    rintro m ⟨ms, _, hpath⟩
    have hm : m ≤ 4 := hpath.start_mem (R := (· ≤ 4)) hclosed (by decide)
    interval_cases m <;> rfl
  obtain ⟨r, hr, hten⟩ : ∃ r, analysis.solve (twoLoopsGraph (.int 7)) = .ok r ∧
      r.iterations = 10 := ⟨_, rfl, rfl⟩
  obtain ⟨r', hr', hfourteen⟩ : ∃ r', analysis.solve (twoLoopsGraph
      (.binary ⟨Sample.int 2 "y", Sample.int 1 "x", .arithmetic .add⟩)) = .ok r' ∧
      r'.iterations = 14 := ⟨_, rfl, rfl⟩
  have hnode : 3 ∈ g.nodes := by decide
  exact ⟨hshape, hboundary, hsame, r, r', hr, hr', hten, hfourteen,
    before_determined_by_inflow hshape hboundary hr hr' hnode hsame⟩

end ConstantPropagation
end ConstFlow
