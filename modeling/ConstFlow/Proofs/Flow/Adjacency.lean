import ConstFlow.Flow.Graph
import ConstFlow.Program.Samples
import Mathlib.Data.Nat.Notation

/-! # Arcs and neighbours

Every arc is the arc to the first position or belongs to one statement. All arcs join
nodes of the graph, none leads to the entry and none leaves the exit, so successors and
predecessors are two readings of the same arcs.
-/
namespace ConstFlow

theorem except_bind_eq_ok {ε α β : Type} {x : Except ε α} {f : α → Except ε β} {b : β}
    (h : x >>= f = .ok b) : ∃ a, x = .ok a ∧ f a = .ok b := by
  cases x with
  | error e => cases h
  | ok a => exact ⟨a, rfl, h⟩

namespace Procedure
variable {p : Procedure}

theorem nodeAt_pos (p : Procedure) (i : Nat) : 0 < p.nodeAt i := by
  simp [nodeAt]

theorem nodeAt_le (p : Procedure) (i : Nat) : p.nodeAt i ≤ p.statements.length + 1 := by
  unfold nodeAt
  omega

theorem nodeAt_of_le {i : ℕ} (h : i ≤ p.statements.length) : p.nodeAt i = i + 1 := by
  unfold nodeAt
  omega

/-- Control may go from the statement at position `i` to position `j`, for the reason `k`. -/
def Leads (p : Procedure) (i : ℕ) : Statement → ArcKind → ℕ → Prop
  | .jump l, k, j => k = .jump ∧ p.labelTarget l = .ok j
  | .branch b, k, j => k = .ifTrue ∧ p.labelTarget b.target = .ok j ∨ k = .ifFalse ∧ j = i + 1
  | .ret _, k, j => k = .leave ∧ j = p.statements.length
  | .define _, k, j | .call _, k, j | .nop, k, j => k = .fallThrough ∧ j = i + 1

/-- The arcs of a statement are the ways in which control may leave it. -/
theorem mem_arcsOf_iff {i : ℕ} {s : Statement} {own : List Arc} (h : p.arcsOf i s = .ok own)
    {a : Arc} : a ∈ own ↔ a.source = i + 1 ∧ ∃ j, p.Leads i s a.kind j ∧ a.target = p.nodeAt j := by
  obtain ⟨m, n, k⟩ := a
  cases s with
  | jump l =>
    obtain ⟨t, ht, h⟩ := except_bind_eq_ok h
    cases h
    simp only [List.mem_singleton, Arc.mk.injEq, Leads, ht, Except.ok.injEq]
    constructor
    · rintro ⟨rfl, rfl, rfl⟩
      exact ⟨rfl, t, ⟨rfl, rfl⟩, rfl⟩
    · rintro ⟨rfl, j, ⟨rfl, rfl⟩, rfl⟩
      exact ⟨rfl, rfl, rfl⟩
  | branch b =>
    obtain ⟨t, ht, h⟩ := except_bind_eq_ok h
    cases h
    simp only [List.mem_cons, List.not_mem_nil, or_false, Arc.mk.injEq, Leads, ht,
      Except.ok.injEq]
    constructor
    · rintro (⟨rfl, rfl, rfl⟩ | ⟨rfl, rfl, rfl⟩)
      · exact ⟨rfl, t, Or.inl ⟨rfl, rfl⟩, rfl⟩
      · exact ⟨rfl, i + 1, Or.inr ⟨rfl, rfl⟩, rfl⟩
    · rintro ⟨rfl, j, ⟨rfl, rfl⟩ | ⟨rfl, rfl⟩, rfl⟩
      · exact Or.inl ⟨rfl, rfl, rfl⟩
      · exact Or.inr ⟨rfl, rfl, rfl⟩
  | ret v =>
    cases h
    simp only [List.mem_singleton, Arc.mk.injEq, Leads]
    constructor
    · rintro ⟨rfl, rfl, rfl⟩
      exact ⟨rfl, _, ⟨rfl, rfl⟩, (nodeAt_of_le (Nat.le_refl _)).symm⟩
    · rintro ⟨rfl, j, ⟨rfl, rfl⟩, rfl⟩
      exact ⟨rfl, nodeAt_of_le (Nat.le_refl _), rfl⟩
  | define | call | nop =>
    cases h
    simp only [List.mem_singleton, Arc.mk.injEq, Leads]
    constructor
    · rintro ⟨rfl, rfl, rfl⟩
      exact ⟨rfl, i + 1, ⟨rfl, rfl⟩, rfl⟩
    · rintro ⟨rfl, j, ⟨rfl, rfl⟩, rfl⟩
      exact ⟨rfl, rfl, rfl⟩

/-- The arcs of a statement leave its node and stay within the graph. -/
theorem arcsOf_range {i : Nat} {s : Statement} {own : List Arc} (h : p.arcsOf i s = .ok own)
    {a : Arc} (ha : a ∈ own) :
    a.source = i + 1 ∧ 0 < a.target ∧ a.target ≤ p.statements.length + 1 := by
  obtain ⟨hsource, j, _, htarget⟩ := (mem_arcsOf_iff h).mp ha
  rw [htarget]
  exact ⟨hsource, p.nodeAt_pos j, p.nodeAt_le j⟩

theorem mem_arcsFrom {i : Nat} {l : List Statement} {arcs : List Arc}
    (h : p.arcsFrom i l = .ok arcs) {a : Arc} :
    a ∈ arcs ↔ ∃ k s own, l[k]? = some s ∧ p.arcsOf (i + k) s = .ok own ∧ a ∈ own := by
  induction l generalizing i arcs with
  | nil => cases h; simp
  | cons s rest ih =>
    obtain ⟨here, hhere, h⟩ := except_bind_eq_ok h
    obtain ⟨later, hlater, h⟩ := except_bind_eq_ok h
    cases h
    rw [List.mem_append, ih hlater]
    constructor
    · rintro (ha | ⟨k, t, own, hk, hown, ha⟩)
      · exact ⟨0, s, here, rfl, hhere, ha⟩
      · exact ⟨k + 1, t, own, hk, by rw [← hown]; congr 1; omega, ha⟩
    · rintro ⟨k, t, own, hk, hown, ha⟩
      cases k with
      | zero =>
        cases hk
        cases hhere.symm.trans hown
        exact Or.inl ha
      | succ k => exact Or.inr ⟨k, t, own, hk, by rw [← hown]; congr 1; omega, ha⟩

theorem exists_arcsOf {i : Nat} {l : List Statement} {arcs : List Arc}
    (h : p.arcsFrom i l = .ok arcs) {k : Nat} {s : Statement} (hk : l[k]? = some s) :
    ∃ own, p.arcsOf (i + k) s = .ok own := by
  induction l generalizing i arcs k with
  | nil => cases hk
  | cons t rest ih =>
    obtain ⟨here, hhere, h⟩ := except_bind_eq_ok h
    obtain ⟨later, hlater, _⟩ := except_bind_eq_ok h
    cases k with
    | zero =>
      cases hk
      exact ⟨here, hhere⟩
    | succ k =>
      obtain ⟨own, hown⟩ := ih hlater hk
      exact ⟨own, by rw [← hown]; congr 1; omega⟩

end Procedure

namespace FlowGraph
variable (g : FlowGraph)

theorem mem_arcs {a : Arc} : a ∈ g.arcs ↔ a = ⟨0, g.procedure.nodeAt 0, .enter⟩ ∨
    ∃ i s own, g.procedure.statements[i]? = some s ∧ g.procedure.arcsOf i s = .ok own ∧
      a ∈ own := by
  obtain ⟨arcs, harcs, h⟩ := except_bind_eq_ok g.arcs_eq
  have he : g.arcs = ⟨0, g.procedure.nodeAt 0, .enter⟩ :: arcs := (Except.ok.inj h).symm
  rw [he, List.mem_cons, Procedure.mem_arcsFrom harcs]
  simp only [Nat.zero_add]

/-- All labels that the statements of a flow graph jump to are bound. -/
theorem exists_arcsOf {i : Nat} {s : Statement} (h : g.procedure.statements[i]? = some s) :
    ∃ own, g.procedure.arcsOf i s = .ok own := by
  obtain ⟨arcs, harcs, _⟩ := except_bind_eq_ok g.arcs_eq
  obtain ⟨own, hown⟩ := Procedure.exists_arcsOf harcs h
  exact ⟨own, by rw [← hown]; congr 1; omega⟩

/-- Arcs lead from a node other than the exit to a node other than the entry. -/
theorem arc_range {a : Arc} (ha : a ∈ g.arcs) :
    a.source < g.exit ∧ g.entry < a.target ∧ a.target < g.size := by
  unfold exit entry size
  rcases g.mem_arcs.mp ha with rfl | ⟨i, s, own, hi, hown, ha⟩
  · have h := g.procedure.nodeAt_le 0
    have hpos := g.procedure.nodeAt_pos 0
    dsimp only
    omega
  · obtain ⟨hlt, _⟩ := List.getElem?_eq_some_iff.mp hi
    have h := Procedure.arcsOf_range hown ha
    omega

theorem mem_nodes {n : Nat} : n ∈ g.nodes ↔ n < g.size := List.mem_range

theorem exit_lt_size : g.exit < g.size := by
  unfold exit size
  omega

/-- All nodes but the entry, which is the first. -/
theorem nodes_filter_ne_entry :
    g.nodes.filter (· != g.entry) = (List.range (g.size - 1)).map (· + 1) := by
  change (List.range (g.procedure.statements.length + 1 + 1)).filter (· != 0) = _
  rw [List.range_succ_eq_map, List.filter_cons_of_neg (by decide), List.filter_eq_self.mpr]
  · rfl
  · intro n hn
    obtain ⟨k, _, rfl⟩ := List.mem_map.mp hn
    simp

/-- All nodes but the exit, which is the last. -/
theorem nodes_filter_ne_exit : g.nodes.filter (· != g.exit) = List.range (g.size - 1) := by
  change (List.range (g.exit + 1)).filter (· != g.exit) = List.range g.exit
  have hbelow : (List.range g.exit).filter (· != g.exit) = List.range g.exit := by
    rw [List.filter_eq_self]
    intro n hn
    have hlt : n < g.exit := List.mem_range.mp hn
    simpa using Nat.ne_of_lt hlt
  have hexit : [g.exit].filter (· != g.exit) = [] := by simp
  rw [List.range_succ, List.filter_append, hbelow, hexit, List.append_nil]

/-- Where something happens there is a statement. -/
theorem exists_statement {n : Nat} (h : g.statement n ≠ .nop) :
    ∃ i, n = i + 1 ∧ g.procedure.statements[i]? = some (g.statement n) := by
  cases n with
  | zero => exact absurd rfl h
  | succ i =>
    refine ⟨i, rfl, ?_⟩
    simp only [statement] at h ⊢
    cases hi : g.procedure.statements[i]? with
    | none => exact absurd (by rw [hi]; rfl) h
    | some s => rfl

/-- A statement that does something is one of the procedure's. -/
theorem statement_mem {n : Nat} (h : g.statement n ≠ .nop) :
    g.statement n ∈ g.procedure.statements := by
  obtain ⟨i, _, hi⟩ := g.exists_statement h
  exact List.mem_of_getElem? hi

theorem lt_exit_of_statement {n : Nat} (h : g.statement n ≠ .nop) : n < g.exit := by
  obtain ⟨i, rfl, hi⟩ := g.exists_statement h
  obtain ⟨hlt, _⟩ := List.getElem?_eq_some_iff.mp hi
  unfold exit
  omega

theorem mem_succs {m n : Nat} : n ∈ g.succs m ↔ ∃ a ∈ g.arcs, a.source = m ∧ a.target = n := by
  simp only [succs, List.mem_filter, List.contains_iff_mem, List.mem_map, beq_iff_eq, mem_nodes]
  constructor
  · rintro ⟨_, a, ⟨ha, hm⟩, hn⟩
    exact ⟨a, ha, hm, hn⟩
  · rintro ⟨a, ha, hm, rfl⟩
    exact ⟨(g.arc_range ha).2.2, a, ⟨ha, hm⟩, rfl⟩

theorem mem_preds {m n : Nat} : m ∈ g.preds n ↔ ∃ a ∈ g.arcs, a.source = m ∧ a.target = n := by
  simp only [preds, List.mem_filter, List.contains_iff_mem, List.mem_map, beq_iff_eq, mem_nodes]
  constructor
  · rintro ⟨_, a, ⟨ha, hn⟩, hm⟩
    exact ⟨a, ha, hm, hn⟩
  · rintro ⟨a, ha, rfl, hn⟩
    exact ⟨Nat.lt_trans (g.arc_range ha).1 g.exit_lt_size, a, ⟨ha, hn⟩, rfl⟩

theorem mem_preds_iff_mem_succs {m n : Nat} : m ∈ g.preds n ↔ n ∈ g.succs m := by
  rw [mem_preds, mem_succs]

theorem succ_range {m n : Nat} (h : n ∈ g.succs m) : g.entry < n ∧ n < g.size := by
  obtain ⟨a, ha, _, rfl⟩ := g.mem_succs.mp h
  exact (g.arc_range ha).2

theorem pred_range {m n : Nat} (h : m ∈ g.preds n) : m < g.exit := by
  obtain ⟨a, ha, rfl, _⟩ := g.mem_preds.mp h
  exact (g.arc_range ha).1

theorem mem_nodes_of_succ {m n : Nat} (h : n ∈ g.succs m) : n ∈ g.nodes :=
  g.mem_nodes.mpr (g.succ_range h).2

theorem mem_nodes_of_lt_exit {n : Nat} (h : n < g.exit) : n ∈ g.nodes :=
  g.mem_nodes.mpr (Nat.lt_trans h g.exit_lt_size)

end FlowGraph

/-- The flow graph of a sample, in which all labels are bound. -/
def Sample.graph (x : Sample) : FlowGraph where
  procedure := x.procedure
  arcs := x.procedure.arcs.toOption.getD []
  arcs_eq := by cases x <;> rfl

end ConstFlow
