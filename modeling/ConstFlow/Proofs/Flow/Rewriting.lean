import ConstFlow.Proofs.Flow.Adjacency

/-! # Rewriting statements

Statements may be exchanged for others through which control flows in the same way. The
positions, the labels and with them all arcs stay as they are.
-/
namespace ConstFlow

/-- Whatever `f` puts in the place of a statement, control flows through it as before. -/
structure KeepsFlow (f : ℕ → Statement → Statement) : Prop where
  arcsOf_eq : ∀ (p : Procedure) i j s, p.arcsOf i (f j s) = p.arcsOf i s
  nop_eq : ∀ i, f i .nop = .nop

namespace Procedure

/-- The procedure with each statement `s`, at position `i`, replaced by `f i s`. -/
def rewrite (p : Procedure) (f : ℕ → Statement → Statement) : Procedure :=
  { p with statements := p.statements.mapIdx f }

variable {p : Procedure} {f : ℕ → Statement → Statement}

@[simp] theorem length_rewrite : (p.rewrite f).statements.length = p.statements.length :=
  List.length_mapIdx

theorem nodeAt_rewrite (i : ℕ) : (p.rewrite f).nodeAt i = p.nodeAt i := by
  simp only [nodeAt, length_rewrite]

theorem arcsOf_rewrite (i : ℕ) (s : Statement) : (p.rewrite f).arcsOf i s = p.arcsOf i s := by
  have hlabel : (p.rewrite f).labelTarget = p.labelTarget := rfl
  cases s <;> simp only [arcsOf, nodeAt_rewrite, length_rewrite, hlabel]

theorem arcsFrom_rewrite (hf : KeepsFlow f) (i : ℕ) (ss : List Statement) :
    (p.rewrite f).arcsFrom i (ss.mapIdx fun k => f (i + k)) = p.arcsFrom i ss := by
  induction ss generalizing i with
  | nil => rfl
  | cons s rest ih =>
    have hshift : (fun k => f (i + (k + 1))) = fun k => f (i + 1 + k) := by
      funext k
      rw [Nat.add_right_comm, Nat.add_assoc]
    rw [List.mapIdx_cons, arcsFrom, arcsFrom, arcsOf_rewrite, hf.arcsOf_eq, hshift, ih]

theorem arcs_rewrite (hf : KeepsFlow f) : (p.rewrite f).arcs = p.arcs := by
  have hfrom := arcsFrom_rewrite (p := p) hf 0 p.statements
  simp only [Nat.zero_add] at hfrom
  rw [arcs, arcs, nodeAt_rewrite]
  exact congrArg (· >>= _) hfrom

end Procedure

namespace FlowGraph
variable (g : FlowGraph)

/-- A graph is the graph of its procedure. -/
theorem flowGraph_procedure : g.procedure.flowGraph = .ok g := by
  obtain ⟨p, arcs, harcs⟩ := g
  unfold Procedure.flowGraph
  split
  · rename_i arcs' harcs'
    cases harcs.symm.trans harcs'
    rfl
  · rename_i e he
    cases harcs.symm.trans he

/-- The graph of the rewritten procedure. -/
def rewrite (f : ℕ → Statement → Statement) (hf : KeepsFlow f) : FlowGraph :=
  ⟨g.procedure.rewrite f, g.arcs, (Procedure.arcs_rewrite hf).trans g.arcs_eq⟩

variable {g} {f : ℕ → Statement → Statement} {hf : KeepsFlow f}

theorem nodes_rewrite : (g.rewrite f hf).nodes = g.nodes := by
  simp [nodes, size, rewrite]

theorem preds_rewrite : (g.rewrite f hf).preds = g.preds := by
  funext n
  rw [preds, preds, nodes_rewrite]
  rfl

/-- Nothing happens at the entry and the exit, whatever is rewritten. -/
theorem statement_rewrite (i : ℕ) :
    (g.rewrite f hf).statement (i + 1) = f i (g.statement (i + 1)) := by
  simp only [statement, rewrite, Procedure.rewrite, List.getElem?_mapIdx]
  cases g.procedure.statements[i]? with
  | none => exact (hf.nop_eq i).symm
  | some s => rfl

end FlowGraph
end ConstFlow
