import ConstFlow.Dataflow.Counting
import ConstFlow.Proofs.Dataflow.SinglePass
import ConstFlow.Proofs.Dataflow.VisitOrder

/-! # Procedures that only jump forward

When every jump goes to a later position, every arc goes to a node with a higher number. The
order in which nodes are first visited then follows all arcs that facts travel along, forward as
well as backward. One pass over the nodes is therefore a whole run, whatever changes are claimed.
-/
namespace ConstFlow

namespace Procedure

/-- Every jump goes to a position behind its own, or to the end. -/
def JumpsForward (p : Procedure) : Prop :=
  ∀ i s l t, p.statements[i]? = some s → s.target? = some l → p.labelTarget l = .ok t → i < t

/-- Control never comes to a position that it has been at. -/
theorem JumpsForward.lt_of_leads {p : Procedure} (hp : p.JumpsForward) {i j : ℕ} {s : Statement}
    {k : ArcKind} (hi : p.statements[i]? = some s) (h : p.Leads i s k j) : i < j := by
  cases s with
  | jump l => exact hp i _ l j hi rfl h.2
  | branch b =>
    rcases h with ⟨_, h⟩ | ⟨_, rfl⟩
    · exact hp i _ b.target j hi rfl h
    · exact Nat.lt_succ_self i
  | ret v =>
    obtain ⟨hlt, _⟩ := List.getElem?_eq_some_iff.mp hi
    exact h.2 ▸ hlt
  | define | call | nop => exact h.2 ▸ Nat.lt_succ_self i

end Procedure

theorem FlowGraph.lt_of_mem_succs {g : FlowGraph} (hg : g.procedure.JumpsForward) {m n : ℕ}
    (h : n ∈ g.succs m) : m < n := by
  obtain ⟨a, ha, rfl, rfl⟩ := g.mem_succs.mp h
  rcases g.mem_arcs.mp ha with rfl | ⟨i, s, own, hi, hown, ha⟩
  · exact g.procedure.nodeAt_pos 0
  · obtain ⟨hsource, j, hleads, htarget⟩ := (Procedure.mem_arcsOf_iff hown).mp ha
    obtain ⟨hlt, _⟩ := List.getElem?_eq_some_iff.mp hi
    have hij := hg.lt_of_leads hi hleads
    rw [hsource, htarget, Procedure.nodeAt]
    omega

namespace Analysis
variable {F : Type} {a : Analysis F} {g : FlowGraph} {limit : ℕ} {r : ℕ → ℕ → Prop}

theorem history_of_sorted [Std.Asymm r] (h : (a.problem g).Sorted r)
    (hlimit : g.size - 1 ≤ limit) :
    (a.attempt g limit).history.map Visit.node = (a.problem g).seeds := by
  rw [← length_seeds a g] at hlimit
  rw [Progress.history, List.map_reverse, List.reverse_eq_iff]
  rw [attempt_eq_run]
  exact (h.run_done (a.problem_wellFormed g) hlimit).2

/-- Where all jumps go forward, a limit suffices for a solution exactly if it allows one visit to
each node but the origin. No more visits are made then, in ascending order of nodes forward and
in descending order backward. -/
theorem solved_in_one_pass (a : Analysis F) (g : FlowGraph) (hg : g.procedure.JumpsForward)
    (limit : ℕ) :
    (g.size - 1 ≤ limit →
      (∃ s, a.solveWithin g limit = .ok s ∧ s.iterations = g.size - 1) ∧
      (a.direction = .forward → (a.attempt g limit).history.map Visit.node =
        (List.range (g.size - 1)).map (· + 1)) ∧
      (a.direction = .backward → (a.attempt g limit).history.map Visit.node =
        (List.range (g.size - 1)).reverse)) ∧
    (limit < g.size - 1 → a.solveWithin g limit = .error (.fuelExhausted limit)) := by
  have harcs : ∀ m, ∀ n ∈ g.succs m, m < n := fun _ _ => FlowGraph.lt_of_mem_succs hg
  cases hd : a.direction with
  | forward =>
    have h := sorted_of_forward hd harcs
    refine ⟨fun hlimit => ⟨exists_solution_of_sorted h hlimit, fun _ => ?_, nofun⟩,
      fuelExhausted_of_sorted h⟩
    rw [history_of_sorted h hlimit, problem_of_forward hd, g.nodes_filter_ne_entry]
  | backward =>
    have h := sorted_of_backward hd harcs
    refine ⟨fun hlimit => ⟨exists_solution_of_sorted h hlimit, nofun, fun _ => ?_⟩,
      fuelExhausted_of_sorted h⟩
    rw [history_of_sorted h hlimit, problem_of_backward hd, g.nodes_filter_ne_exit]

/-- A branch to the statement behind it and a jump to the end, over a statement that no path
leads to. -/
def skippingJumps : Procedure :=
  (Procedure.named "skip").edits [Sample.declareInt "x", .newLabel, .newLabel,
    .push (.branch ⟨⟨Sample.int 0 "x", Sample.int 0 "x", .comparison .lt⟩, ⟨0⟩⟩), .bind ⟨0⟩,
    .push (.jump ⟨1⟩), .push .nop, .bind ⟨1⟩]

def skippingGraph : FlowGraph := ⟨skippingJumps, skippingJumps.arcs.toOption.getD [], rfl⟩

/-- Counting without a ceiling claims a change at each of its four visits. -/
theorem skipping_jumps_counted_in_one_pass :
    let forth := Counting.analysis ⟨"count", 4⟩
    let back := Counting.analysis ⟨"count", 4⟩ .backward
    skippingGraph.procedure.JumpsForward ∧
    (∃ s, forth.solveWithin skippingGraph 4 = .ok s ∧ s.iterations = 4) ∧
    (forth.attempt skippingGraph 4).history.map Visit.node = [1, 2, 3, 4] ∧
    (∃ s, back.solveWithin skippingGraph 100 = .ok s ∧ s.iterations = 4) ∧
    (back.attempt skippingGraph 100).history.map Visit.node = [3, 2, 1, 0] ∧
    forth.solveWithin skippingGraph 3 = .error (.fuelExhausted 3) := by
  intro forth back
  have hjumps : skippingGraph.procedure.JumpsForward := by
    intro i s l t hi hl ht
    match i with
    | 0 =>
      cases hi
      cases hl
      cases ht
      decide
    | 1 =>
      cases hi
      cases hl
      cases ht
      decide
    | 2 =>
      cases hi
      cases hl
    | _ + 3 => cases hi
  have hsize : skippingGraph.size - 1 = 4 := rfl
  obtain ⟨hforth, hshort⟩ := solved_in_one_pass forth skippingGraph hjumps 4
  obtain ⟨hback, _⟩ := solved_in_one_pass back skippingGraph hjumps 100
  obtain ⟨hforthSolved, hascending, _⟩ := hforth (by decide)
  obtain ⟨hbackSolved, _, hdescending⟩ := hback (by decide)
  have hfew := (solved_in_one_pass forth skippingGraph hjumps 3).2 (by decide)
  exact ⟨hjumps, hforthSolved, hascending rfl, hbackSolved, hdescending rfl, hfew⟩

end Analysis
end ConstFlow
