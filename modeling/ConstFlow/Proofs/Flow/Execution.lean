import ConstFlow.Constants.Arithmetic
import ConstFlow.Proofs.Flow.Adjacency
import Mathlib.Data.Nat.Notation
import Mathlib.Logic.Function.Basic
import Mathlib.Logic.Relation

/-! # Execution

A procedure runs from position to position, without regard to its flow graph. The store
holds 32-bit words for the variables that are followed. Whatever else a procedure reads
may be any word, and either side of a branch may be taken.
-/
namespace ConstFlow

/-- The words assigned so far, by the ids of variables. -/
abbrev Store := ℕ → Option Int32

/-- The results that an expression may have. A copy of an unassigned variable is
unassigned, whereas a binary term needs both operands and no fault. -/
def Expression.Yields (σ : Store) : Expression → Option Int32 → Prop
  | int c, v => v = some c
  | var x, v => v = σ x.id
  | binary t, v => ∃ y z c, σ t.left.id = some y ∧ σ t.right.id = some z ∧
      t.op.fold y z = .ok c ∧ v = some c
  | long _, v | neg _, v | cast _ _, v | field _, v | element _, v | call _, v | alloc _, v =>
      ∃ c, v = some c

/-- What a statement does to the store. -/
def Statement.Updates (σ σ' : Store) : Statement → Prop
  | define ⟨.var x, e⟩ =>
      if x.holdsInt then ∃ v, e.Yields σ v ∧ σ' = Function.update σ x.id v else σ' = σ
  | define ⟨.field _, _⟩ | define ⟨.element _, _⟩ | branch _ | jump _ | call _ | ret _ | nop =>
      σ' = σ

namespace Procedure
variable {p : Procedure}

/-- The positions where control may go from the statement at position `i`. The number of
statements is the end of the procedure. -/
def Follows (p : Procedure) (i : ℕ) : Statement → ℕ → Prop
  | .jump l, j => p.labelTarget l = .ok j
  | .branch b, j => p.labelTarget b.target = .ok j ∨ j = i + 1
  | .ret _, j => j = p.statements.length
  | .define _, j | .call _, j | .nop, j => j = i + 1

structure State where
  pc : ℕ
  store : Store

def Step (p : Procedure) (s t : State) : Prop :=
  ∃ statement, p.statements[s.pc]? = some statement ∧ p.Follows s.pc statement t.pc ∧
    statement.Updates s.store t.store

/-- At the first position, with any words in the parameters that are followed. -/
def Initial (p : Procedure) (s : State) : Prop :=
  s.pc = 0 ∧ ∀ i, (s.store i).isSome ↔ ∃ x ∈ p.params, x.holdsInt = true ∧ x.id = i

theorem follows_iff_leads {i j : ℕ} {s : Statement} :
    p.Follows i s j ↔ ∃ k, p.Leads i s k j := by
  cases s <;> simp [Follows, Leads, exists_or]

/-- The arcs of a statement lead where control may go. -/
theorem exists_arc_iff_follows {i : ℕ} {s : Statement} {own : List Arc}
    (h : p.arcsOf i s = .ok own) {n : ℕ} :
    (∃ a ∈ own, a.target = n) ↔ ∃ j, p.Follows i s j ∧ p.nodeAt j = n := by
  simp only [follows_iff_leads, mem_arcsOf_iff h]
  constructor
  · rintro ⟨a, ⟨_, j, hleads, htarget⟩, rfl⟩
    exact ⟨j, ⟨a.kind, hleads⟩, htarget.symm⟩
  · rintro ⟨j, ⟨k, hleads⟩, rfl⟩
    exact ⟨⟨i + 1, p.nodeAt j, k⟩, ⟨rfl, j, hleads, rfl⟩, rfl⟩

end Procedure

namespace FlowGraph
variable (g : FlowGraph)

theorem statement_succ {i : ℕ} {s : Statement} (h : g.procedure.statements[i]? = some s) :
    g.statement (i + 1) = s := by
  simp only [statement, h, Option.getD_some]

theorem statement_nodeAt {i : ℕ} {s : Statement} (h : g.procedure.statements[i]? = some s) :
    g.statement (g.procedure.nodeAt i) = s := by
  obtain ⟨hlt, _⟩ := List.getElem?_eq_some_iff.mp h
  rw [Procedure.nodeAt_of_le (Nat.le_of_lt hlt)]
  exact g.statement_succ h

theorem succ_mem_nodes {i : ℕ} (h : i ≤ g.procedure.statements.length) : i + 1 ∈ g.nodes := by
  rw [mem_nodes, size]
  omega

theorem nodeAt_mem_nodes (i : ℕ) : g.procedure.nodeAt i ∈ g.nodes :=
  g.succ_mem_nodes (Nat.min_le_right i _)

/-- The successors of a statement's node stand where control may go. -/
theorem mem_succs_iff_follows {i : ℕ} {s : Statement}
    (hs : g.procedure.statements[i]? = some s) {n : ℕ} :
    n ∈ g.succs (g.procedure.nodeAt i) ↔
      ∃ j, g.procedure.Follows i s j ∧ g.procedure.nodeAt j = n := by
  obtain ⟨hlt, _⟩ := List.getElem?_eq_some_iff.mp hs
  obtain ⟨own, hown⟩ := g.exists_arcsOf hs
  rw [mem_succs, ← Procedure.exists_arc_iff_follows hown, Procedure.nodeAt_of_le (Nat.le_of_lt hlt)]
  constructor
  · rintro ⟨a, ha, hsource, htarget⟩
    rcases g.mem_arcs.mp ha with rfl | ⟨k, t, own', hk, hown', ha⟩
    · cases hsource
    · have hrange := Procedure.arcsOf_range hown' ha
      obtain rfl : k = i := by omega
      cases hs.symm.trans hk
      cases hown.symm.trans hown'
      exact ⟨a, ha, htarget⟩
  · rintro ⟨a, ha, htarget⟩
    have hrange := Procedure.arcsOf_range hown ha
    exact ⟨a, g.mem_arcs.mpr (Or.inr ⟨i, s, own, hs, hown, ha⟩), hrange.1, htarget⟩

/-- Control enters at the first position. -/
theorem nodeAt_zero_mem_succs : g.procedure.nodeAt 0 ∈ g.succs g.entry :=
  g.mem_succs.mpr ⟨_, g.mem_arcs.mpr (Or.inl rfl), rfl, rfl⟩

/-- Every step follows an arc. -/
theorem nodeAt_mem_succs_of_step {s t : Procedure.State} (h : g.procedure.Step s t) :
    g.procedure.nodeAt t.pc ∈ g.succs (g.procedure.nodeAt s.pc) := by
  obtain ⟨statement, hs, hfollows, _⟩ := h
  exact (g.mem_succs_iff_follows hs).mpr ⟨t.pc, hfollows, rfl⟩

end FlowGraph
end ConstFlow
