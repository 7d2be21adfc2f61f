import ConstFlow.Proofs.Constants.Monotonicity
import ConstFlow.Proofs.Dataflow.LeastSolution
import ConstFlow.Proofs.Flow.Execution

/-! # Soundness of constant propagation

A valuation describes a store if every word in the store is the constant that the valuation
gives, or the valuation gives `nac`. The facts of a solution describe the stores of all
runs: statements keep to their effects, and steps keep to the arcs along which facts climb.
-/
namespace ConstFlow

/-- Variables may be unassigned whatever their values. -/
def Valuation.Describes (f : Valuation) (σ : Store) : Prop :=
  ∀ x k, σ x.id = some k → f.get x = .constant k ∨ f.get x = .nac

namespace Valuation
variable {f g : Valuation} {σ : Store}

theorem describes_iff :
    f.Describes σ ↔ ∀ x : Variable, ∀ k, σ x.id = some k → .constant k ≤ f.get x := by
  simp only [Describes, Value.constant_le_iff]

theorem Describes.mono (hf : f.Describes σ) (h : f ≤ g) : g.Describes σ := by
  rw [describes_iff] at hf ⊢
  intro x k hk
  exact (hf x k hk).trans (h x)

end Valuation

/-- Evaluation foresees every result. Known operands fold the same way, and raising them
raises the value of the term. -/
theorem Expression.Yields.constant_le_evaluate {e : Expression} {σ : Store} {k : Int32}
    (h : e.Yields σ (some k)) {f : Valuation} (hf : f.Describes σ) :
    .constant k ≤ e.evaluate f := by
  rw [Valuation.describes_iff] at hf
  cases e with
  | int c =>
    cases h
    rw [evaluate_int]
  | var x =>
    rw [evaluate_var]
    exact hf x k h.symm
  | binary t =>
    obtain ⟨y, z, c, hy, hz, hfold, hc⟩ := h
    cases hc
    have hterm : t.op.combine (.constant y) (.constant z) = .constant k := by
      rw [Operator.combine_constants, hfold]
    rw [evaluate_binary, ← hterm]
    -- the operands may also have risen to `nac`, which takes the term with them
    exact t.op.combine_mono (hf t.left y hy) (hf t.right z hz)
  | long | neg | cast | field | element | call | alloc => exact Value.le_nac _

namespace Statement
variable {s : Statement} {σ σ' : Store} {x : Variable} {e : Expression}

theorem updates_define (hx : x.holdsInt = true) :
    (define ⟨.var x, e⟩).Updates σ σ' ↔
      ∃ v, e.Yields σ v ∧ σ' = Function.update σ x.id v := by
  simp only [Updates, hx, ↓reduceIte]

theorem updates_of_intDefinition (hd : s.intDefinition? = some (x, e)) :
    s.Updates σ σ' ↔ ∃ v, e.Yields σ v ∧ σ' = Function.update σ x.id v := by
  obtain ⟨rfl, hx⟩ := intDefinition?_eq_some_iff.mp hd
  exact updates_define hx

theorem updates_of_not_intDefinition (hd : s.intDefinition? = none) :
    s.Updates σ σ' ↔ σ' = σ := by
  cases s with
  | define d =>
    obtain ⟨place, e⟩ := d
    cases place with
    | var x =>
      have hx : x.holdsInt ≠ true := by
        intro hx
        rw [intDefinition?_eq_some_iff.mpr ⟨rfl, hx⟩] at hd
        cases hd
      simp only [Updates, hx, Bool.false_eq_true, ↓reduceIte]
    | field | element => exact Iff.rfl
  | branch | jump | call | ret | nop => exact Iff.rfl

end Statement

namespace ConstantPropagation

/-- The effect of a statement describes what the statement does to the store. -/
theorem effect_describes {s : Statement} {σ σ' : Store} (h : s.Updates σ σ') {f : Valuation}
    (hf : f.Describes σ) : (effect s f).Describes σ' := by
  cases hd : s.intDefinition? with
  | none =>
    rw [effect_of_not_intDefinition hd]
    obtain rfl := (Statement.updates_of_not_intDefinition hd).mp h
    exact hf
  | some d =>
    obtain ⟨v, hv, rfl⟩ := (Statement.updates_of_intDefinition hd).mp h
    rw [Valuation.describes_iff]
    intro y k hk
    rw [get_effect hd]
    by_cases hy : d.1 == y
    · rw [Variable.beq_iff.mp hy, Function.update_self] at hk
      rw [if_pos hy]
      exact (hk ▸ hv).constant_le_evaluate hf
    · have hne : y.id ≠ d.1.id := fun h => hy (Variable.beq_iff.mpr h.symm)
      rw [Function.update_of_ne hne] at hk
      rw [if_neg hy]
      exact Valuation.describes_iff.mp hf y k hk

theorem boundary_describes {g : FlowGraph} {s : Procedure.State} (h : g.procedure.Initial s) :
    (boundary g).Describes s.store := by
  intro x k hk
  obtain ⟨y, hy, hint, hid⟩ := (h.2 x.id).mp (Option.isSome_of_eq_some hk)
  rw [get_boundary, if_pos]
  · exact Or.inr rfl
  · exact List.any_eq_true.mpr ⟨y, hy, by simp [hint, Variable.beq_iff.mpr hid]⟩

section Runs
variable {g : FlowGraph} {before after : ℕ → Valuation}
variable (hfacts : IsLeastSolution g.nodes g.entry g.preds (fun n => effect (g.statement n)) .empty
  (boundary g) before after)
include hfacts

theorem after_describes_of_step {s t : Procedure.State} (hstep : g.procedure.Step s t)
    (hs : (before (g.procedure.nodeAt s.pc)).Describes s.store) :
    (after (g.procedure.nodeAt s.pc)).Describes t.store := by
  obtain ⟨statement, hstatement, _, hupdates⟩ := hstep
  have hbeq := hfacts.output_beq _ (g.nodeAt_mem_nodes s.pc) (g.procedure.nodeAt_pos s.pc).ne'
  rw [g.statement_nodeAt hstatement, Valuation.beq_iff_le_le] at hbeq
  exact (effect_describes hupdates hs).mono hbeq.2

theorem before_describes_of_succ {m n : ℕ} (h : n ∈ g.succs m) {σ : Store}
    (hm : (after m).Describes σ) : (before n).Describes σ :=
  hm.mono (hfacts.output_le_input_of_succ h)

/-- Wherever a run comes to, the facts before that place describe the store. -/
theorem before_describes_of_run {s t : Procedure.State} (hs : g.procedure.Initial s)
    (hrun : Relation.ReflTransGen g.procedure.Step s t) :
    (before (g.procedure.nodeAt t.pc)).Describes t.store := by
  induction hrun with
  | refl =>
    rw [hs.1]
    apply before_describes_of_succ hfacts g.nodeAt_zero_mem_succs
    rw [hfacts.output_origin]
    exact boundary_describes hs
  | tail _ hstep ih =>
    exact before_describes_of_succ hfacts (g.nodeAt_mem_succs_of_step hstep)
      (after_describes_of_step hfacts hstep ih)

end Runs

/-- At every place that a run of the procedure comes to, the facts of a solution describe
the store, both before the statement and after it. -/
theorem solution_describes_runs {settings : Settings} {g : FlowGraph} {r : Solution Valuation}
    (hr : (analysis settings).solve g = .ok r) {s t : Procedure.State}
    (hs : g.procedure.Initial s) (hrun : Relation.ReflTransGen g.procedure.Step s t) :
    (∃ f, r.inFact? (g.procedure.nodeAt t.pc) = some f ∧ f.Describes t.store) ∧
    ∀ u, g.procedure.Step t u →
      ∃ f, r.outFact? (g.procedure.nodeAt t.pc) = some f ∧ f.Describes u.store := by
  have hfacts := (lawful settings).isLeastSolution_of_forward rfl hr
  have hbefore := before_describes_of_run hfacts hs hrun
  obtain ⟨hin, hout⟩ := Analysis.facts_of_solveWithin hr (g.nodeAt_mem_nodes t.pc)
  refine ⟨⟨_, hin, hbefore⟩, ?_⟩
  intro u hstep
  exact ⟨_, hout, after_describes_of_step hfacts hstep hbefore⟩

/-- The head of the loop in the second round, when `x` has risen to one. -/
theorem loop_head_described_in_second_round :
    let p := Sample.loop.procedure
    let σ : Store := Function.update (fun _ => none) 0 (some 5)
    let σ' := Function.update (Function.update (Function.update σ 1 (some 0)) 2 (some 1)) 1 (some 1)
    ∃ r f, analysis.solve Sample.loop.graph = .ok r ∧ p.Initial ⟨0, σ⟩ ∧
      Relation.ReflTransGen p.Step ⟨0, σ⟩ ⟨2, σ'⟩ ∧ r.inFact? 3 = some f ∧ f.Describes σ' := by
  intro p σ σ'
  obtain ⟨r, hr⟩ : ∃ r, analysis.solve Sample.loop.graph = .ok r := ⟨_, rfl⟩
  have hs : p.Initial ⟨0, σ⟩ := by
    refine ⟨rfl, fun i => ?_⟩
    change (Function.update (fun _ => none) 0 (some (5 : Int32)) i).isSome ↔
      ∃ x ∈ [Sample.int 0 "n"], x.holdsInt = true ∧ x.id = i
    by_cases hi : i = 0
    · subst hi
      simp [Sample.int, Variable.holdsInt, DataType.isIntLike, DataType.toPrimitive?,
        Primitive.isIntLike]
    · simp [Function.update_of_ne hi, Sample.int, Ne.symm hi]
  have hzero : p.Step ⟨0, σ⟩ ⟨1, Function.update σ 1 (some 0)⟩ :=
    ⟨_, rfl, rfl, (Statement.updates_define rfl).mpr ⟨_, rfl, rfl⟩⟩
  have hone : p.Step ⟨1, Function.update σ 1 (some 0)⟩
      ⟨2, Function.update (Function.update σ 1 (some 0)) 2 (some 1)⟩ :=
    ⟨_, rfl, rfl, (Statement.updates_define rfl).mpr ⟨_, rfl, rfl⟩⟩
  have hstay : p.Step ⟨2, Function.update (Function.update σ 1 (some 0)) 2 (some 1)⟩
      ⟨3, Function.update (Function.update σ 1 (some 0)) 2 (some 1)⟩ := ⟨_, rfl, Or.inr rfl, rfl⟩
  have hadd : p.Step ⟨3, Function.update (Function.update σ 1 (some 0)) 2 (some 1)⟩ ⟨4, σ'⟩ :=
    ⟨_, rfl, rfl, (Statement.updates_define rfl).mpr ⟨_, ⟨0, 1, 1, rfl, rfl, rfl, rfl⟩, rfl⟩⟩
  have hback : p.Step ⟨4, σ'⟩ ⟨2, σ'⟩ := ⟨_, rfl, rfl, rfl⟩
  have hrun : Relation.ReflTransGen p.Step ⟨0, σ⟩ ⟨2, σ'⟩ :=
    ((((Relation.ReflTransGen.single hzero).tail hone).tail hstay).tail hadd).tail hback
  obtain ⟨⟨f, hf, hdescribes⟩, _⟩ := solution_describes_runs (g := Sample.loop.graph) hr hs hrun
  exact ⟨r, f, hr, hs, hrun, hf, hdescribes⟩

end ConstantPropagation
end ConstFlow
