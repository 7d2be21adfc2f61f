import ConstFlow.Proofs.Dataflow.LeastSolution
import ConstFlow.Proofs.Dataflow.VisitOrder
import ConstFlow.Proofs.Flow.Cycles
import Mathlib.Logic.Hydra
import Mathlib.Tactic.IntervalCases

/-! # Analyses that always claim a change

If a change is claimed at every visit, the nodes of a cycle keep each other in the queue, and no
fuel is enough. Without cycles every analysis comes to an end, because a visit puts nodes in the
place of its own that can only be followed by fewer. The facts are then those that honest claims
would have led to: a node may be visited without need, but none is left unsettled.
-/
namespace ConstFlow

namespace Problem
variable {F : Type} {p : Problem F}

/-- A visit replaces a node of the queue by some of its targets. -/
theorem cutExpand_advance (s : Progress F) (n : ℕ) (rest : Worklist) :
    Relation.CutExpand (fun m k => m ∈ p.targets k) ((p.advance s n rest).queue : Multiset ℕ)
      (n :: rest.queue : List ℕ) := by
  obtain ⟨extra, hextra, hqueue⟩ := p.exists_queue_advance s n rest
  refine ⟨extra, n, fun m hm => hextra (Multiset.mem_coe.mp hm), ?_⟩
  rw [hqueue, ← Multiset.coe_add, ← Multiset.cons_coe, ← Multiset.singleton_add, add_comm,
    ← add_assoc]

/-- Where targets are well founded, a run comes to its end whatever its transfers claim. -/
theorem exists_done (h : WellFounded fun m n => m ∈ p.targets n) (s : Progress F) :
    ∃ fuel, (p.run fuel s).queue = [] := by
  have hqueues := InvImage.wf (fun s : Progress F => (s.queue : Multiset ℕ)) h.cutExpand
  induction s using hqueues.induction with
  | _ s ih =>
    obtain ⟨hq, _⟩ | ⟨n, rest, hq, hturn⟩ := p.turn_cases s
    · exact ⟨0, hq⟩
    · have hsmaller := p.cutExpand_advance s n rest
      rw [← hq] at hsmaller
      obtain ⟨fuel, hdone⟩ := ih (p.advance s n rest) hsmaller
      exact ⟨fuel + 1, by rw [run_turn, hturn, hdone]⟩

/-- Every visit claims a change. -/
def AlwaysChanging (p : Problem F) : Prop := ∀ n f o, (p.transfer n f o).2 = true

/-- Some node waits at any time among nodes each of which has a target among them. -/
theorem AlwaysChanging.queue_ne_nil (hc : p.AlwaysChanging) (hp : p.WellFormed) {C : ℕ → Prop}
    (hC : ∀ n, C n → ∃ m ∈ p.targets n, C m) {n : ℕ} (hn : C n) (fuel : ℕ) :
    (p.run fuel p.start).queue ≠ [] := by
  have hwaiting : ∃ m ∈ (p.run fuel p.start).queue, C m := by
    refine run_invariant hp (P := fun s => ∃ m ∈ s.queue, C m) ?_ ?_ fuel
    · obtain ⟨m, hm, hCm⟩ := hC n hn
      exact ⟨m, p.mem_queue_start.mpr (hp.seeded n m hm), hCm⟩
    · rintro s k rest hq _ ⟨m, hm, hCm⟩
      rw [hq, List.mem_cons] at hm
      rcases hm with rfl | hm
      · obtain ⟨j, hj, hCj⟩ := hC m hCm
        exact ⟨j, p.mem_queue_advance.mpr (Or.inr ⟨hc m _ _, hj⟩), hCj⟩
      · exact ⟨m, p.mem_queue_advance.mpr (Or.inl hm), hCm⟩
  obtain ⟨m, hm, _⟩ := hwaiting
  exact List.ne_nil_of_mem hm

/-- The problem with the same outputs in which a change is claimed only where there is one. -/
def honest [BEq F] (p : Problem F) : Problem F :=
  { p with transfer := fun n f o => ((p.transfer n f o).1, (p.transfer n f o).1 != o) }

/-- Claiming changes that are none does no harm, as long as all changes are claimed. -/
theorem Climbing.run_of_honest [BEq F] [Preorder F] {effect : ℕ → F → F}
    (hl : p.honest.Lawful effect) (hp : p.WellFormed)
    (hclaims : ∀ n f o, ((p.transfer n f o).1 != o) = true → (p.transfer n f o).2 = true)
    (fuel : ℕ) : p.Climbing effect (p.run fuel p.start) := by
  have hp' : p.honest.WellFormed := ⟨hp.mem_targets, hp.seeded, hp.origin_not_seeded⟩
  have hstart : p.honest.Climbing effect p.honest.start := Climbing.start hl hp'
  refine run_invariant hp ⟨hstart.output_le, hstart.input_le, hstart.settled⟩ ?_ fuel
  intro s n rest hq hn hs
  have hs' : p.honest.Climbing effect s := ⟨hs.output_le, hs.input_le, hs.settled⟩
  have hnext : p.honest.Climbing effect (p.honest.advance s n rest) := hs'.advance hl hp' hq hn
  refine ⟨hnext.output_le, hnext.input_le, fun k hk hkq => hnext.settled k hk fun hmem => hkq ?_⟩
  -- what an honest visit puts in the queue, this one does too
  rcases p.honest.mem_queue_advance.mp hmem with hrest | ⟨hchanged, htarget⟩
  · exact p.mem_queue_advance.mpr (Or.inl hrest)
  · exact p.mem_queue_advance.mpr (Or.inr ⟨hclaims n _ _ hchanged, htarget⟩)

end Problem

namespace Counting
variable {settings : Settings} {g : FlowGraph} {limit : ℕ}

theorem alwaysChanging (settings : Settings) (g : FlowGraph) :
    ((analysis settings).problem g).AlwaysChanging := fun _ _ _ => rfl

/-- No count gets ahead of the visits, so counts fit where the limit does. -/
theorem count_le_visits (settings : Settings) (g : FlowGraph) (limit n : ℕ) :
    ((analysis settings).attempt g limit).inputs.get n ≤
      ((analysis settings).attempt g limit).visits.length ∧
    ((analysis settings).attempt g limit).outputs.get n ≤
      ((analysis settings).attempt g limit).visits.length := by
  rw [Analysis.attempt_eq_run]
  refine Problem.run_invariant ((analysis settings).problem_wellFormed g)
    (P := fun s => ∀ n, s.inputs.get n ≤ s.visits.length ∧ s.outputs.get n ≤ s.visits.length)
    ?_ ?_ limit n
  · intro n
    rw [Problem.outputs_start]
    split <;> exact ⟨Nat.le_refl 0, Nat.le_refl 0⟩
  · intro s n rest _ _ ih m
    have hgather : ((analysis settings).problem g).gather s n ≤ s.visits.length :=
      Problem.gather_induction (P := (· ≤ s.visits.length)) (ih n).1
        fun k _ t ht => max_le ht (ih k).2
    have hm := ih m
    rw [Problem.inputs_advance, Problem.outputs_advance, Problem.visits_advance,
      List.length_cons]
    split
    · exact ⟨Nat.le_succ_of_le hgather, Nat.succ_le_succ hgather⟩
    · exact ⟨Nat.le_succ_of_le hm.1, Nat.le_succ_of_le hm.2⟩

theorem climbing_attempt (settings : Settings) (g : FlowGraph) (limit : ℕ) :
    ((analysis settings).problem g).Climbing (fun _ f => f + 1)
      ((analysis settings).attempt g limit) := by
  have hlawful : ((analysis settings).problem g).honest.Lawful fun _ f => f + 1 :=
    factLaws fun _ _ h => Nat.succ_le_succ h
  rw [Analysis.attempt_eq_run]
  exact .run_of_honest hlawful ((analysis settings).problem_wellFormed g) (fun _ _ _ _ => rfl) limit

/-- In the end a node counts one more than the largest count that comes to it. -/
theorem count_of_done (hdone : ((analysis settings).attempt g limit).queue = []) {n : ℕ}
    (hn : n ∈ g.nodes) (hne : n ≠ g.entry) :
    ((analysis settings).attempt g limit).outputs.get n =
      1 + ((g.preds n).map ((analysis settings).attempt g limit).outputs.get).max?.getD 0 := by
  have hs := climbing_attempt settings g limit
  have hseed : n ∈ ((analysis settings).problem g).seeds :=
    ((analysis settings).mem_seeds g).mpr ⟨hn, hne⟩
  obtain ⟨hsources, hle⟩ := hs.settled n hseed (by simp [hdone])
  have houtput := le_antisymm (hs.output_le n hseed) hle
  have hinput : ((analysis settings).attempt g limit).inputs.get n =
      ((g.preds n).map ((analysis settings).attempt g limit).outputs.get).max?.getD 0 := by
    apply le_antisymm
    · exact hs.input_le n hseed _ fun m hm => List.le_max?_getD_of_mem (List.mem_map_of_mem hm)
    · cases hmax : ((g.preds n).map ((analysis settings).attempt g limit).outputs.get).max? with
      | none => exact Nat.zero_le _
      | some c =>
        obtain ⟨m, hm, rfl⟩ := List.mem_map.mp (List.max?_eq_some_iff.mp hmax).1
        exact hsources m hm
  rw [houtput, hinput, Nat.add_comm]

/-- Counting without a ceiling never ends on a graph with a cycle, whether or not control comes
to it. On any other graph it ends, and a node counts the nodes on the longest path that ends in it,
the entry not included. -/
theorem ends_iff_acyclic (settings : Settings) (g : FlowGraph) :
    ((∃ n, g.Reaches n n) → ∀ limit,
      (analysis settings).solveWithin g limit = .error (.fuelExhausted limit)) ∧
    ((∀ n, ¬g.Reaches n n) → ∃ enough, ∀ limit, enough ≤ limit →
      ∃ r count, (analysis settings).solveWithin g limit = .ok r ∧
        (∀ n ∈ g.nodes, r.outFact? n = some (count n)) ∧ count g.entry = 0 ∧
        ∀ n ∈ g.nodes, n ≠ g.entry →
          count n = 1 + ((g.preds n).map count).max?.getD 0) := by
  have hp := (analysis settings).problem_wellFormed g
  constructor
  · rintro ⟨n, hn⟩ limit
    refine Analysis.solveWithin_eq_error_iff.mpr ⟨rfl, ?_⟩
    rw [Analysis.attempt_eq_run]
    exact (alwaysChanging settings g).queue_ne_nil hp (C := fun n => g.Reaches n n)
      (fun _ h => h.exists_succ) hn limit
  · intro hacyclic
    obtain ⟨enough, hdone⟩ :=
      ((analysis settings).problem g).exists_done (g.wellFounded_succs hacyclic) _
    refine ⟨enough, fun limit hlimit => ?_⟩
    have hended : ((analysis settings).attempt g limit).queue = [] := by
      rw [Analysis.attempt_eq_run, Problem.run_eq_of_done hdone hlimit, hdone]
    have hsolved := Analysis.solveWithin_of_done hended
    refine ⟨_, ((analysis settings).attempt g limit).outputs.get, hsolved, ?_, ?_, ?_⟩
    · intro n hn
      exact (Analysis.facts_of_solveWithin hsolved hn).2
    · rw [Analysis.attempt_eq_run]
      exact (Problem.run_origin hp limit).2
    · intro n hn hne
      exact count_of_done hended hn hne

/-- Two jumps to each other behind a return. -/
def unreachableCycle : Procedure :=
  (Procedure.named "cycle").edits [.newLabel, .newLabel, .push (.ret none), .bind ⟨0⟩,
    .push (.jump ⟨1⟩), .bind ⟨1⟩, .push (.jump ⟨0⟩)]

def unreachableCycleGraph : FlowGraph :=
  ⟨unreachableCycle, unreachableCycle.arcs.toOption.getD [], rfl⟩

/-- The first statement jumps to the last, which jumps back to the second, which jumps to the
end. -/
def backAndForth : Procedure :=
  (Procedure.named "detour").edits [.newLabel, .newLabel, .newLabel, .push (.jump ⟨1⟩), .bind ⟨0⟩,
    .push (.jump ⟨2⟩), .bind ⟨1⟩, .push (.jump ⟨0⟩), .bind ⟨2⟩]

def backAndForthGraph : FlowGraph := ⟨backAndForth, backAndForth.arcs.toOption.getD [], rfl⟩

/-- A cycle that control does not come to is enough to count without end. A jump backward is not,
and the exit then counts the three jumps and itself. -/
theorem only_cycles_counted_without_end :
    unreachableCycleGraph.Reaches 2 2 ∧
    (∀ limit, (analysis ⟨"count", 50⟩).solveWithin unreachableCycleGraph limit =
      .error (.fuelExhausted limit)) ∧
    (∀ n, ¬backAndForthGraph.Reaches n n) ∧
    ∃ enough, ∀ limit, enough ≤ limit → ∃ r,
      (analysis ⟨"count", 50⟩).solveWithin backAndForthGraph limit = .ok r ∧
      r.outFact? backAndForthGraph.exit = some 4 := by
  have hcycle : unreachableCycleGraph.Reaches 2 2 :=
    ⟨[2, 3], by decide, .cons (by decide) (.cons (by decide) (.nil 2))⟩
  have hacyclic : ∀ n, ¬backAndForthGraph.Reaches n n := by
    apply FlowGraph.not_reaches_of_rank fun n => [0, 1, 3, 2, 4].getD n 0
    intro m n hn
    have hm : m < 4 :=
      backAndForthGraph.pred_range (backAndForthGraph.mem_preds_iff_mem_succs.mpr hn)
    interval_cases m <;> revert n <;> decide
  obtain ⟨hendless, _⟩ := ends_iff_acyclic ⟨"count", 50⟩ unreachableCycleGraph
  obtain ⟨_, hends⟩ := ends_iff_acyclic ⟨"count", 50⟩ backAndForthGraph
  obtain ⟨enough, hsolved⟩ := hends hacyclic
  refine ⟨hcycle, hendless ⟨2, hcycle⟩, hacyclic, enough, fun limit hlimit => ?_⟩
  obtain ⟨r, count, hr, hcount, hentry, hnodes⟩ := hsolved limit hlimit
  have hzero : count 0 = 0 := hentry
  have hone : count 1 = 1 + ([0].map count).max?.getD 0 := hnodes 1 (by decide) (by decide)
  have hthree : count 3 = 1 + ([1].map count).max?.getD 0 := hnodes 3 (by decide) (by decide)
  have htwo : count 2 = 1 + ([3].map count).max?.getD 0 := hnodes 2 (by decide) (by decide)
  have hfour : count 4 = 1 + ([2].map count).max?.getD 0 := hnodes 4 (by decide) (by decide)
  have hexit : count 4 = 4 := by simp [hfour, htwo, hthree, hone, hzero]
  exact ⟨r, hr, by rw [← hexit]; exact hcount 4 (by decide)⟩

end Counting
end ConstFlow
