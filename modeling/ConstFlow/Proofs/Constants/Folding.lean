import ConstFlow.Proofs.Constants.Monotonicity
import ConstFlow.Proofs.Dataflow.LeastSolution
import ConstFlow.Proofs.Flow.Rewriting

/-! # Folding constants

A definition after which its variable is known may as well define that constant. The old
facts solve the new equations, so the new facts lie below them. From there the old effects
do not lead beyond the new facts, because evaluation is monotone, so the old facts lie
below the new ones.
-/
namespace ConstFlow

/-- The statement with its value replaced by the constant that the defined variable has in
the facts after it, if it has one. -/
def Statement.folded (s : Statement) (after : Valuation) : Statement :=
  match s.intDefinition? with
  | some (x, _) =>
    match after.get x with
    | .constant c => .define ⟨.var x, .int c⟩
    | .undefined | .nac => s
  | none => s

theorem Statement.folded_cases (s : Statement) (after : Valuation) : s.folded after = s ∨
    ∃ x e c, s.intDefinition? = some (x, e) ∧ after.get x = .constant c ∧
      (s.folded after).intDefinition? = some (x, .int c) := by
  unfold folded
  split
  · rename_i x e hd
    split
    · rename_i c hc
      have hx := (intDefinition?_eq_some_iff.mp hd).2
      exact Or.inr ⟨x, e, c, hd, hc, intDefinition?_eq_some_iff.mpr ⟨rfl, hx⟩⟩
    · exact Or.inl rfl
    · exact Or.inl rfl
  · exact Or.inl rfl

namespace ConstantPropagation

section Effects
variable {s : Statement} {before before' after : Valuation}

/-- Under the old facts a folded statement does nothing new. -/
theorem effect_folded_le (h : (after == effect s before) = true) :
    effect (s.folded after) before ≤ after := by
  rw [Valuation.beq_iff_get] at h
  intro y
  obtain hs | ⟨x, e, c, hd, hc, hd'⟩ := s.folded_cases after
  · rw [hs, h y]
  · rw [get_effect hd']
    by_cases hxy : x == y
    · rw [if_pos hxy, ← after.get_congr hxy, hc, Expression.evaluate_int]
    · rw [if_neg hxy, h y, get_effect hd, if_neg hxy]

/-- Below the old facts a folded statement does no less. -/
theorem effect_le_effect_folded (h : (after == effect s before) = true) (hle : before' ≤ before) :
    effect s before' ≤ effect (s.folded after) before' := by
  rw [Valuation.beq_iff_get] at h
  intro y
  obtain hs | ⟨x, e, c, hd, hc, hd'⟩ := s.folded_cases after
  · rw [hs]
  · rw [get_effect hd, get_effect hd']
    split
    · calc e.evaluate before' ≤ e.evaluate before := e.evaluate_mono hle
        _ = after.get x := by rw [h x, get_effect hd, if_pos BEq.rfl]
        _ = (Expression.int c).evaluate before' := by rw [hc, Expression.evaluate_int]
    · exact le_rfl

end Effects

/-- Folds the chosen statements, those of other nodes staying as they are. -/
def foldAt (chosen : ℕ → Bool) (after : ℕ → Valuation) (i : ℕ) (s : Statement) : Statement :=
  if chosen (i + 1) then s.folded (after (i + 1)) else s

theorem keepsFlow_foldAt (chosen : ℕ → Bool) (after : ℕ → Valuation) :
    KeepsFlow (foldAt chosen after) where
  arcsOf_eq p i j s := by
    unfold foldAt
    split
    · obtain hs | ⟨x, e, c, hd, _, hd'⟩ := s.folded_cases (after (j + 1))
      · rw [hs]
      · rw [(Statement.intDefinition?_eq_some_iff.mp hd').1,
          (Statement.intDefinition?_eq_some_iff.mp hd).1]
        rfl
    · rfl
  nop_eq i := ite_self _

end ConstantPropagation

/-- The procedure with the definitions at chosen nodes folded by the facts after them. -/
def Procedure.folded (p : Procedure) (chosen : ℕ → Bool) (after : ℕ → Valuation) : Procedure :=
  p.rewrite (ConstantPropagation.foldAt chosen after)

namespace ConstantPropagation

section Solutions
variable {g : FlowGraph} {before after before' after' : ℕ → Valuation} {chosen : ℕ → Bool}
variable (h : IsLeastSolution g.nodes g.entry g.preds (fun n => effect (g.statement n)) .empty
  (boundary g) before after)
variable (h' : IsLeastSolution g.nodes g.entry g.preds
  (fun n => effect ((g.rewrite _ (keepsFlow_foldAt chosen after)).statement n)) .empty
  (boundary g) before' after')
include h h'

theorem folded_solution_le {n : ℕ} (hn : n ∈ g.nodes) :
    before' n ≤ before n ∧ after' n ≤ after n := by
  refine h'.le_of_effect_le h ?_ hn
  intro m hm hne
  obtain ⟨i, rfl⟩ := Nat.exists_eq_succ_of_ne_zero hne
  have hout := h.output_beq _ hm hne
  rw [FlowGraph.statement_rewrite]
  unfold foldAt
  split
  · exact effect_folded_le hout
  · exact ((Valuation.beq_iff_le_le _ _).mp hout).2

theorem le_folded_solution {n : ℕ} (hn : n ∈ g.nodes) :
    before n ≤ before' n ∧ after n ≤ after' n := by
  refine h.le_of_effect_le h' ?_ hn
  intro m hm hne
  have hle := (folded_solution_le h h' hm).1
  have hout' := ((Valuation.beq_iff_le_le _ _).mp (h'.output_beq m hm hne)).2
  refine le_trans ?_ hout'
  obtain ⟨i, rfl⟩ := Nat.exists_eq_succ_of_ne_zero hne
  rw [FlowGraph.statement_rewrite]
  unfold foldAt
  split
  · exact effect_le_effect_folded (h.output_beq _ hm hne) hle
  · exact le_rfl

end Solutions

/-- Folding any definitions by the facts of a solution leaves a procedure with a graph, and
every solution for it has the same facts. -/
theorem folding_keeps_solution {settings settings' : Settings} {g : FlowGraph}
    {r : Solution Valuation} (hr : (analysis settings).solve g = .ok r) (chosen : ℕ → Bool) :
    ∃ g', (g.procedure.folded chosen r.after.get).flowGraph = .ok g' ∧
      ∀ r', (analysis settings').solve g' = .ok r' → ∀ n ∈ g.nodes,
        (∃ f f', r.inFact? n = some f ∧ r'.inFact? n = some f' ∧ (f' == f) = true) ∧
        ∃ f f', r.outFact? n = some f ∧ r'.outFact? n = some f' ∧ (f' == f) = true := by
  let g' := g.rewrite _ (keepsFlow_foldAt chosen r.after.get)
  refine ⟨g', g'.flowGraph_procedure, fun r' hr' n hn => ?_⟩
  have h := (lawful settings).isLeastSolution_of_forward rfl hr
  have h' := (lawful settings').isLeastSolution_of_forward rfl hr'
  have hn' : n ∈ g'.nodes := FlowGraph.nodes_rewrite.symm ▸ hn
  obtain ⟨hin, hout⟩ := Analysis.facts_of_solveWithin hr hn
  obtain ⟨hin', hout'⟩ := Analysis.facts_of_solveWithin hr' hn'
  rw [FlowGraph.nodes_rewrite, FlowGraph.preds_rewrite] at h'
  obtain ⟨hbefore, hafter⟩ := folded_solution_le h h' hn
  obtain ⟨hbefore', hafter'⟩ := le_folded_solution h h' hn
  exact ⟨⟨_, _, hin, hin', (Valuation.beq_iff_le_le _ _).mpr ⟨hbefore, hbefore'⟩⟩,
    ⟨_, _, hout, hout', (Valuation.beq_iff_le_le _ _).mpr ⟨hafter, hafter'⟩⟩⟩

/-- Sets `y` in front of the definition of `x`, which control passes first. -/
def lateUse (e : Expression) : Procedure :=
  (Procedure.named "late").edits [Sample.declareInt "x", Sample.declareInt "y", .newLabel,
    .newLabel, .push (.jump ⟨1⟩), .bind ⟨0⟩, Sample.assign (Sample.int 1 "y") e,
    .push (.ret (some (Sample.int 1 "y"))), .bind ⟨1⟩,
    Sample.assign (Sample.int 0 "x") (.int 1), .push (.jump ⟨0⟩)]

def lateUseGraph (e : Expression) : FlowGraph :=
  ⟨lateUse e, (lateUse e).arcs.toOption.getD [], rfl⟩

/-- `y = x + x`, undefined at the first visit, becomes `y = 2`. -/
theorem late_sum_folded :
    let sum := Expression.binary ⟨Sample.int 0 "x", Sample.int 0 "x", .arithmetic .add⟩
    ∃ r r', analysis.solve (lateUseGraph sum) = .ok r ∧
      (lateUse sum).folded (· == 2) r.after.get = lateUse (.int 2) ∧
      analysis.solve (lateUseGraph (.int 2)) = .ok r' ∧
      ∃ f f', r.outFact? 2 = some f ∧ r'.outFact? 2 = some f' ∧ (f' == f) = true := by
  intro sum
  obtain ⟨r, hr, hy⟩ : ∃ r, analysis.solve (lateUseGraph (.binary
        ⟨Sample.int 0 "x", Sample.int 0 "x", .arithmetic .add⟩)) = .ok r ∧
      (r.after.get 2).get (Sample.int 1 "y") = .constant 2 := ⟨_, rfl, rfl⟩
  obtain ⟨r', hr'⟩ : ∃ r', analysis.solve (lateUseGraph (.int 2)) = .ok r' := ⟨_, rfl⟩
  have hsum : (Statement.define ⟨.var (Sample.int 1 "y"), sum⟩).folded (r.after.get 2) =
      .define ⟨.var (Sample.int 1 "y"), .int 2⟩ := by
    change (match (r.after.get 2).get (Sample.int 1 "y") with
      | .constant c => Statement.define ⟨.var (Sample.int 1 "y"), .int c⟩
      | .undefined | .nac => _) = _
    rw [hy]
  have hfolded : (lateUse sum).folded (· == 2) r.after.get = lateUse (.int 2) :=
    congrArg (fun s => { lateUse sum with
      statements := [.jump ⟨1⟩, s, .ret (some (Sample.int 1 "y")),
        .define ⟨.var (Sample.int 0 "x"), .int 1⟩, .jump ⟨0⟩] }) hsum
  obtain ⟨g', hg', hsame⟩ := @folding_keeps_solution _ settings _ _ hr (· == 2)
  have hgraph : (lateUse (.int 2)).flowGraph = .ok (lateUseGraph (.int 2)) :=
    (lateUseGraph (.int 2)).flowGraph_procedure
  obtain rfl : g' = lateUseGraph (.int 2) := by
    change ((lateUse sum).folded (· == 2) r.after.get).flowGraph = .ok g' at hg'
    rw [hfolded, hgraph] at hg'
    exact (Except.ok.inj hg').symm
  exact ⟨r, r', hr, hfolded, hr', (hsame r' hr' 2 (by decide)).2⟩

end ConstantPropagation
end ConstFlow
