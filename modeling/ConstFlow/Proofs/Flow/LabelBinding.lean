import ConstFlow.Proofs.Collections.Positions
import ConstFlow.Proofs.Flow.ControlFlow

/-! # Where labels are bound

The target of a label is the number of statements that stood when it was bound, which happens
once at most. So a history of edits tells all targets, and with them where the jumps of the
graph go, whatever is written before and after.
-/
namespace ConstFlow

namespace Procedure
variable {name : String} {es : List Edit} {l : Label} {k : ℕ}

/-- In the course of the edits `l` is bound, after `k` statements have been pushed. -/
def BoundAt (name : String) (es : List Edit) (l : Label) (k : ℕ) : Prop :=
  ∃ earlier later, es = earlier ++ .bind l :: later ∧
    (((named name).edits earlier).edit (.bind l)).2 = .bound ∧ k = earlier.countP Edit.pushes

theorem edits_concat (p : Procedure) (es : List Edit) (e : Edit) :
    p.edits (es ++ [e]) = ((p.edits es).edit e).1 :=
  List.foldl_concat _ p e es

theorem length_statements_edits (name : String) (es : List Edit) :
    ((named name).edits es).statements.length = es.countP Edit.pushes := by
  induction es using List.reverseRecOn with
  | nil => rfl
  | append_singleton es e ih =>
    rw [edits_concat, length_statements_edit, ih, List.countP_append, List.countP_singleton]

theorem size_labels_edits (name : String) (es : List Edit) :
    ((named name).edits es).labels.size = es.countP Edit.createsLabel := by
  induction es using List.reverseRecOn with
  | nil => rfl
  | append_singleton es e ih =>
    rw [edits_concat, size_labels_edit, ih, List.countP_append, List.countP_singleton]

theorem boundAt_concat {e : Edit} : BoundAt name (es ++ [e]) l k ↔ BoundAt name es l k ∨
    e = .bind l ∧ (((named name).edits es).edit e).2 = .bound ∧ k = es.countP Edit.pushes := by
  constructor
  · rintro ⟨earlier, later, hes, hbound, hk⟩
    obtain ⟨rfl, rfl, _⟩ | ⟨rest, rfl, rfl⟩ := concat_eq_append_cons_iff.mp hes
    · exact Or.inr ⟨rfl, hbound, hk⟩
    · exact Or.inl ⟨earlier, rest, rfl, hbound, hk⟩
  · rintro (⟨earlier, later, rfl, hbound, hk⟩ | ⟨rfl, hbound, hk⟩)
    · exact ⟨earlier, later ++ [e], by simp, hbound, hk⟩
    · exact ⟨es, [], rfl, hbound, hk⟩

theorem BoundAt.append (h : BoundAt name es l k) (es' : List Edit) :
    BoundAt name (es ++ es') l k := by
  obtain ⟨earlier, later, rfl, hbound, hk⟩ := h
  exact ⟨earlier, later ++ es', by simp, hbound, hk⟩

/-- The targets are those that the history tells. -/
theorem labelTarget_edits_iff :
    ((named name).edits es).labelTarget l = .ok k ↔ BoundAt name es l k := by
  induction es using List.reverseRecOn with
  | nil =>
    constructor
    · intro h
      cases h
    · rintro ⟨earlier, later, hes, _⟩
      simp at hes
  | append_singleton es e ih =>
    rw [edits_concat, labelTarget_edit, ih, boundAt_concat, length_statements_edits]

theorem leads_target_iff {p : Procedure} {i j : ℕ} {s : Statement} (hs : s.target? = some l) :
    (p.Leads i s .jump j ∨ p.Leads i s .ifTrue j) ↔ p.labelTarget l = .ok j := by
  cases s with
  | jump m =>
    cases hs
    simp [Leads]
  | branch b =>
    cases hs
    simp [Leads]
  | define | call | ret | nop => cases hs

end Procedure

namespace FlowGraph
variable {g : FlowGraph}

theorem mem_kinds_iff_leads (hp : g.procedure.LabelsInRange) {i m : ℕ} {s : Statement}
    {κ : ArcKind} (hi : g.procedure.statements[i]? = some s) :
    κ ∈ g.kinds (i + 1) m ↔ ∃ j, g.procedure.Leads i s κ j ∧ m = j + 1 := by
  rw [mem_kinds, g.mem_arcs_iff_leads hp]
  constructor
  · rintro (henter | ⟨i', s', j, hi', hleads, hsource, hm⟩)
    · cases henter
    · cases hsource
      cases hi.symm.trans hi'
      exact ⟨j, hleads, hm⟩
  · rintro ⟨j, hleads, hm⟩
    exact Or.inr ⟨i, s, j, hi, hleads, rfl, hm⟩

section Jumps
variable {n k : ℕ} {l : Label} (hn : (g.statement n).target? = some l)
include hn

theorem exists_position_of_target : ∃ i, n = i + 1 ∧
    g.procedure.statements[i]? = some (g.statement n) := by
  refine g.exists_statement fun hnop => ?_
  rw [hnop] at hn
  cases hn

/-- No label that a statement of a graph jumps to is left without a target. -/
theorem exists_labelTarget : ∃ k, g.procedure.labelTarget l = .ok k := by
  obtain ⟨i, _, hi⟩ := exists_position_of_target hn
  by_contra hunbound
  exact Procedure.exists_arcsOf_iff.mp (g.exists_arcsOf hi) l ⟨hn, not_exists.mp hunbound⟩

/-- Where control goes when a jump is taken. -/
theorem mem_kinds_target_iff (hp : g.procedure.LabelsInRange)
    (hk : g.procedure.labelTarget l = .ok k) (m : ℕ) :
    (.jump ∈ g.kinds n m ∨ .ifTrue ∈ g.kinds n m) ↔ m = k + 1 := by
  obtain ⟨i, rfl, hi⟩ := exists_position_of_target hn
  rw [mem_kinds_iff_leads hp hi, mem_kinds_iff_leads hp hi, ← exists_or]
  simp only [← or_and_right, Procedure.leads_target_iff hn, hk, Except.ok.injEq]
  exact exists_eq_left'

end Jumps

/-- A position has the node that is numbered one higher, which at the end is the exit. -/
theorem nodeOf_or_exit {k : ℕ} (hk : k ≤ g.procedure.statements.length) :
    k < g.procedure.statements.length ∧ g.nodeOf? k = some (k + 1) ∨
      k = g.procedure.statements.length ∧ k + 1 = g.exit := by
  rcases Nat.lt_or_eq_of_le hk with hlt | rfl
  · exact Or.inl ⟨hlt, if_pos hlt⟩
  · exact Or.inr ⟨rfl, rfl⟩

end FlowGraph

/-- The history of edits tells which labels can be bound, and what the bound ones stand for,
whatever follows. The jumps of the graph go there. -/
theorem Procedure.labels_follow_history (name : String) (es : List Edit) (l : Label) :
    let p := (named name).edits es
    ((p.bind l).2 = .error (.unboundLabel l) ↔ es.countP Edit.createsLabel ≤ l.index) ∧
    ((p.bind l).2 = .error (.duplicateLabel l) ↔ ∃ k, BoundAt name es l k) ∧
    (∀ e, (p.bind l).2 = .error e → (e = .unboundLabel l ∨ e = .duplicateLabel l) ∧
      (p.bind l).1 = p ∧ p.edit (.bind l) = (p, .failed e)) ∧
    (∀ k, p.labelTarget l = .ok k ↔ BoundAt name es l k) ∧
    (∀ k, BoundAt name es l k →
      k ≤ p.statements.length ∧ ∀ es', (p.edits es').labelTarget l = .ok k) ∧
    ((∀ k, ¬BoundAt name es l k) → p.labelTarget l = .error (.unboundLabel l)) ∧
    ∀ g, p.flowGraph = .ok g → ∀ n, (g.statement n).target? = some l → ∃ k t,
      BoundAt name es l k ∧
      (k < p.statements.length ∧ g.nodeOf? k = some t ∨ k = p.statements.length ∧ t = g.exit) ∧
      ∀ m, (.jump ∈ g.kinds n m ∨ .ifTrue ∈ g.kinds n m) ↔ m = t := by
  intro p
  have hrange : p.LabelsInRange := labelsInRange_edits name es
  have htarget : ∀ k, p.labelTarget l = .ok k ↔ BoundAt name es l k :=
    fun k => labelTarget_edits_iff
  refine ⟨?_, ?_, ?_, htarget, ?_, ?_, ?_⟩
  · rw [bind_eq_error_iff, size_labels_edits]
    simp
  · simp only [bind_eq_error_iff, htarget]
    simp
  · intro e he
    refine ⟨?_, bind_of_error he, edit_bind_of_error he⟩
    exact (bind_eq_error_iff.mp he).imp And.left And.left
  · intro k hk
    refine ⟨hrange l k ((htarget k).mpr hk), fun es' => ?_⟩
    -- the bind is also part of the longer history, which has one target for each label
    have happend : p.edits es' = (named name).edits (es ++ es') := List.foldl_append.symm
    rw [happend]
    exact labelTarget_edits_iff.mpr (hk.append es')
  · intro hunbound
    exact labelTarget_eq_error_iff.mpr ⟨rfl, fun k hk => hunbound k ((htarget k).mp hk)⟩
  · intro g hg n hn
    have hp := procedure_of_flowGraph hg
    rw [← hp] at hrange htarget ⊢
    obtain ⟨k, hk⟩ := FlowGraph.exists_labelTarget hn
    exact ⟨k, k + 1, (htarget k).mp hk, FlowGraph.nodeOf_or_exit (hrange l k hk),
      FlowGraph.mem_kinds_target_iff hn hrange hk⟩

/-- Binds before a label exists and after it is bound are rejected, and the others stand: one
label for a branch to itself, the other for the end. -/
theorem Procedure.rejected_binds_leave_no_trace :
    let b : Branch := ⟨⟨Sample.int 0 "x", Sample.int 1 "y", .comparison .lt⟩, ⟨0⟩⟩
    let es : List Edit := [.bind ⟨0⟩, .newLabel, .newLabel, .push (.jump ⟨1⟩), .bind ⟨0⟩,
      .bind ⟨0⟩, .push (.branch b), .bind ⟨0⟩, .bind ⟨1⟩]
    let p := (named "f").edits es
    (p.bind ⟨0⟩).2 = .error (.duplicateLabel ⟨0⟩) ∧
    (p.bind ⟨2⟩).2 = .error (.unboundLabel ⟨2⟩) ∧
    BoundAt "f" es ⟨0⟩ 1 ∧ BoundAt "f" es ⟨1⟩ 2 ∧ ∃ g, p.flowGraph = .ok g ∧
      (∀ m, (.jump ∈ g.kinds 2 m ∨ .ifTrue ∈ g.kinds 2 m) ↔ m = 2) ∧
      ∀ m, (.jump ∈ g.kinds 1 m ∨ .ifTrue ∈ g.kinds 1 m) ↔ m = g.exit := by
  intro b es p
  obtain ⟨_, hduplicate, _, hzero, _, _, hbranch⟩ := labels_follow_history "f" es ⟨0⟩
  obtain ⟨_, _, _, hone, _, _, hjump⟩ := labels_follow_history "f" es ⟨1⟩
  obtain ⟨hunbound, _⟩ := labels_follow_history "f" es ⟨2⟩
  have hbound : BoundAt "f" es ⟨0⟩ 1 := (hzero 1).mp rfl
  have hend : BoundAt "f" es ⟨1⟩ 2 := (hone 2).mp rfl
  obtain ⟨g, hg⟩ : ∃ g, p.flowGraph = .ok g := ⟨_, rfl⟩
  refine ⟨hduplicate.mpr ⟨1, hbound⟩, hunbound.mpr (by decide), hbound, hend, g, hg, ?_, ?_⟩
  · obtain ⟨k, t, hk, ⟨_, ht⟩ | ⟨hlen, _⟩, htaken⟩ := hbranch g hg 2 (by cases hg; rfl)
    · cases (hzero k).mpr hk
      cases hg
      cases ht
      exact htaken
    · cases (hzero k).mpr hk
      exact absurd hlen (by decide)
  · obtain ⟨k, t, hk, ⟨hlt, _⟩ | ⟨_, rfl⟩, htaken⟩ := hjump g hg 1 (by cases hg; rfl)
    · cases (hone k).mpr hk
      exact absurd hlt (by decide)
    · exact htaken

end ConstFlow
