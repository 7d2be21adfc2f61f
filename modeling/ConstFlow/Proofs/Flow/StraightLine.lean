import ConstFlow.Proofs.Flow.ControlFlow
import ConstFlow.Proofs.Flow.Execution

/-! # Straight-line procedures

Without jumps, and with no return but at the end, control goes from each position to the next
one. There is a graph then, and its arcs join each node with the node that is numbered one
higher.
-/
namespace ConstFlow

def Statement.isReturn : Statement → Bool
  | ret _ => true
  | _ => false

namespace Procedure

/-- No statement jumps, and none but the last returns. -/
def StraightLine (p : Procedure) : Prop :=
  (∀ s ∈ p.statements, s.target? = none) ∧ ∀ s ∈ p.statements.dropLast, s.isReturn = false

instance (p : Procedure) : Decidable p.StraightLine :=
  inferInstanceAs (Decidable ((∀ s ∈ p.statements, s.target? = none) ∧
    ∀ s ∈ p.statements.dropLast, s.isReturn = false))

variable {p : Procedure} (hp : p.StraightLine)
include hp

/-- A return has the end of the procedure next to it. -/
theorem StraightLine.end_of_return {i : ℕ} {x : Option Variable}
    (hi : p.statements[i]? = some (.ret x)) : p.statements.length = i + 1 := by
  obtain ⟨hlt, hget⟩ := List.getElem?_eq_some_iff.mp hi
  by_contra hne
  have hbefore : i < p.statements.dropLast.length := by
    rw [List.length_dropLast]
    omega
  have hmem : .ret x ∈ p.statements.dropLast := by
    rw [← hget, ← List.getElem_dropLast hbefore]
    exact List.getElem_mem hbefore
  cases hp.2 _ hmem

theorem StraightLine.follows_iff {i j : ℕ} {s : Statement} (hi : p.statements[i]? = some s) :
    p.Follows i s j ↔ j = i + 1 := by
  have htarget := hp.1 s (List.mem_of_getElem? hi)
  cases s with
  | jump | branch => cases htarget
  | ret x => rw [Follows, hp.end_of_return hi]
  | define | call | nop => exact Iff.rfl

theorem StraightLine.exists_flowGraph : ∃ g, p.flowGraph = .ok g := by
  cases h : p.flowGraph with
  | ok g => exact ⟨g, rfl⟩
  | error e =>
    obtain ⟨_, s, l, hs, ⟨htarget, _⟩, _⟩ := flowGraph_eq_error_iff.mp h
    rw [hp.1 s (List.mem_of_getElem? hs)] at htarget
    cases htarget

end Procedure

namespace FlowGraph
variable {g : FlowGraph}

/-- Only the first position comes right after the entry. -/
theorem mem_succs_entry {n : ℕ} : n ∈ g.succs g.entry ↔ n = 1 := by
  have hfirst : g.procedure.nodeAt 0 = 1 := Procedure.nodeAt_of_le (Nat.zero_le _)
  constructor
  · intro h
    obtain ⟨a, ha, hsource, rfl⟩ := g.mem_succs.mp h
    rcases g.mem_arcs.mp ha with rfl | ⟨_, _, _, _, hown, ha⟩
    · exact hfirst
    · rw [(Procedure.arcsOf_range hown ha).1] at hsource
      cases hsource
  · rintro rfl
    rw [← hfirst]
    exact g.nodeAt_zero_mem_succs

/-- The successor of a node is the next one, and only the exit has none. -/
theorem mem_succs_of_straightLine (hp : g.procedure.StraightLine) {m n : ℕ} :
    n ∈ g.succs m ↔ m < g.exit ∧ n = m + 1 := by
  rcases Nat.lt_or_ge m g.exit with hm | hm
  · rw [and_iff_right hm]
    cases m with
    | zero => exact mem_succs_entry
    | succ i =>
      have hi : i < g.procedure.statements.length := Nat.lt_of_succ_lt_succ hm
      have hs := List.getElem?_eq_getElem hi
      have hnode : g.procedure.nodeAt i = i + 1 := Procedure.nodeAt_of_le (Nat.le_of_lt hi)
      have hnext : g.procedure.nodeAt (i + 1) = i + 1 + 1 := Procedure.nodeAt_of_le hi
      have hfollows := g.mem_succs_iff_follows hs (n := n)
      rw [hnode] at hfollows
      simp only [hfollows, hp.follows_iff hs, exists_eq_left, hnext, eq_comm]
  · have hnot : n ∉ g.succs m := fun h =>
      Nat.not_lt.mpr hm (g.pred_range (g.mem_preds_iff_mem_succs.mpr h))
    have hle : ¬m < g.exit := Nat.not_lt.mpr hm
    simp [hnot, hle]

theorem mem_preds_of_straightLine (hp : g.procedure.StraightLine) {k m : ℕ}
    (hk : k ≤ g.procedure.statements.length) : m ∈ g.preds (k + 1) ↔ m = k := by
  rw [mem_preds_iff_mem_succs, mem_succs_of_straightLine hp]
  unfold exit
  omega

end FlowGraph
end ConstFlow
