import ConstFlow.Proofs.Collections.Sorting
import ConstFlow.Proofs.Flow.Adjacency
import ConstFlow.Proofs.Program.Editing
import Mathlib.Data.List.Nodup
import Mathlib.Data.List.Perm.Subperm

/-! # Graphs depict control flow

Where control may go is said of positions, the number of statements being the end. The
graph of a written procedure exists unless a jump dangles, and then it has one arc for each
reason why control may pass from one position to another, and no others.
-/
namespace ConstFlow

theorem except_bind_eq_error {ε α β : Type} {x : Except ε α} {f : α → Except ε β} {e : ε} :
    x >>= f = .error e ↔ x = .error e ∨ ∃ a, x = .ok a ∧ f a = .error e := by
  cases x with
  | error e' =>
    change Except.error e' = .error e ↔ _
    simp
  | ok a =>
    change f a = .error e ↔ _
    simp

namespace Procedure
variable {p : Procedure}

/-- The statement may jump to `l`, which is not bound. -/
def Dangling (p : Procedure) (s : Statement) (l : Label) : Prop :=
  s.target? = some l ∧ ∀ t, p.labelTarget l ≠ .ok t

theorem arcsOf_eq_error_iff {i : ℕ} {s : Statement} {e : ProgramError} :
    p.arcsOf i s = .error e ↔ ∃ l, p.Dangling s l ∧ e = .unboundLabel l := by
  cases s with
  | jump l =>
    simp only [arcsOf, except_bind_eq_error, labelTarget_eq_error_iff, Dangling,
      Statement.target?]
    simp [pure, Except.pure, and_comm]
  | branch b =>
    simp only [arcsOf, except_bind_eq_error, labelTarget_eq_error_iff, Dangling,
      Statement.target?]
    simp [pure, Except.pure, and_comm]
  | define | call | ret | nop => simp [arcsOf, Dangling, Statement.target?]

theorem exists_arcsOf_iff {i : ℕ} {s : Statement} :
    (∃ own, p.arcsOf i s = .ok own) ↔ ∀ l, ¬p.Dangling s l := by
  constructor
  · rintro ⟨own, hown⟩ l hl
    have herror := arcsOf_eq_error_iff (i := i).mpr ⟨l, hl, rfl⟩
    rw [hown] at herror
    cases herror
  · intro h
    cases hs : p.arcsOf i s with
    | ok own => exact ⟨own, rfl⟩
    | error e =>
      obtain ⟨l, hl, _⟩ := arcsOf_eq_error_iff.mp hs
      exact absurd hl (h l)

/-- The first dangling jump decides. -/
theorem arcsFrom_eq_error_iff {i : ℕ} {ss : List Statement} {e : ProgramError} :
    p.arcsFrom i ss = .error e ↔ ∃ k s l, ss[k]? = some s ∧ p.Dangling s l ∧
      e = .unboundLabel l ∧ ∀ t ∈ ss.take k, ∀ l', ¬p.Dangling t l' := by
  induction ss generalizing i with
  | nil => simp [arcsFrom]
  | cons s rest ih =>
    simp only [arcsFrom, except_bind_eq_error, ih]
    constructor
    · rintro (hs | ⟨here, hhere, ⟨k, t, l, hk, hl, he, hfirst⟩ | ⟨later, _, h⟩⟩)
      · obtain ⟨l, hl, he⟩ := arcsOf_eq_error_iff.mp hs
        exact ⟨0, s, l, rfl, hl, he, by simp⟩
      · refine ⟨k + 1, t, l, hk, hl, he, ?_⟩
        rw [List.take_succ_cons, List.forall_mem_cons]
        exact ⟨exists_arcsOf_iff.mp ⟨here, hhere⟩, hfirst⟩
      · cases h
    · rintro ⟨k, t, l, hk, hl, he, hfirst⟩
      cases k with
      | zero =>
        cases hk
        exact Or.inl (arcsOf_eq_error_iff.mpr ⟨l, hl, he⟩)
      | succ k =>
        rw [List.take_succ_cons, List.forall_mem_cons] at hfirst
        obtain ⟨here, hhere⟩ := exists_arcsOf_iff.mpr hfirst.1
        exact Or.inr ⟨here, hhere, Or.inl ⟨k, t, l, hk, hl, he, hfirst.2⟩⟩

theorem flowGraph_eq_error_iff {e : ProgramError} :
    p.flowGraph = .error e ↔ ∃ k s l, p.statements[k]? = some s ∧ p.Dangling s l ∧
      e = .unboundLabel l ∧ ∀ t ∈ p.statements.take k, ∀ l', ¬p.Dangling t l' := by
  rw [← arcsFrom_eq_error_iff (i := 0)]
  unfold flowGraph
  split
  · rename_i arcs harcs
    obtain ⟨own, hown, _⟩ := except_bind_eq_ok harcs
    simp [hown]
  · rename_i e' he'
    rcases except_bind_eq_error.mp he' with h | ⟨_, _, h⟩
    · simp [h]
    · cases h

theorem procedure_of_flowGraph {g : FlowGraph} (h : p.flowGraph = .ok g) : g.procedure = p := by
  unfold flowGraph at h
  split at h
  · cases h
    rfl
  · cases h

/-- A branch has two arcs for different reasons, any other statement one. -/
theorem arcsOf_shape {i : ℕ} {s : Statement} {own : List Arc} (h : p.arcsOf i s = .ok own) :
    (∃ a, own = [a]) ∨ ∃ a b : Arc, own = [a, b] ∧ a.kind ≠ b.kind := by
  cases s with
  | jump l =>
    obtain ⟨t, _, h⟩ := except_bind_eq_ok h
    cases h
    exact Or.inl ⟨_, rfl⟩
  | branch b =>
    obtain ⟨t, _, h⟩ := except_bind_eq_ok h
    cases h
    exact Or.inr ⟨_, _, rfl, ArcKind.noConfusion⟩
  | define | call | ret | nop =>
    cases h
    exact Or.inl ⟨_, rfl⟩

theorem nodup_arcsOf {i : ℕ} {s : Statement} {own : List Arc} (h : p.arcsOf i s = .ok own) :
    own.Nodup := by
  obtain ⟨a, rfl⟩ | ⟨a, b, rfl, hkind⟩ := arcsOf_shape h
  · exact List.nodup_singleton a
  · have hne : a ≠ b := fun hab => hkind (congrArg Arc.kind hab)
    simp [hne]

theorem length_arcsOf {i : ℕ} {s : Statement} {own : List Arc} (h : p.arcsOf i s = .ok own) :
    own.length = 1 ∨ own.length = 2 := by
  obtain ⟨a, rfl⟩ | ⟨a, b, rfl, _⟩ := arcsOf_shape h
  · exact Or.inl rfl
  · exact Or.inr rfl

/-- Arcs of different statements leave different nodes. -/
theorem nodup_arcsFrom {i : ℕ} {ss : List Statement} {arcs : List Arc}
    (h : p.arcsFrom i ss = .ok arcs) : arcs.Nodup := by
  induction ss generalizing i arcs with
  | nil =>
    cases h
    exact List.nodup_nil
  | cons s rest ih =>
    obtain ⟨here, hhere, h⟩ := except_bind_eq_ok h
    obtain ⟨later, hlater, h⟩ := except_bind_eq_ok h
    cases h
    refine List.nodup_append.mpr ⟨nodup_arcsOf hhere, ih hlater, ?_⟩
    rintro a ha b hb rfl
    obtain ⟨k, t, own, _, hown, hb⟩ := (mem_arcsFrom hlater).mp hb
    have hsource := (arcsOf_range hhere ha).1
    have hsource' := (arcsOf_range hown hb).1
    omega

end Procedure

namespace FlowGraph
variable (g : FlowGraph)

theorem nodup_arcs : g.arcs.Nodup := by
  obtain ⟨arcs, harcs, h⟩ := except_bind_eq_ok g.arcs_eq
  have he : g.arcs = ⟨0, g.procedure.nodeAt 0, .enter⟩ :: arcs := (Except.ok.inj h).symm
  rw [he, List.nodup_cons]
  refine ⟨fun hmem => ?_, Procedure.nodup_arcsFrom harcs⟩
  obtain ⟨k, s, own, _, hown, ha⟩ := (Procedure.mem_arcsFrom harcs).mp hmem
  have hsource := (Procedure.arcsOf_range hown ha).1
  dsimp only at hsource
  omega

/-- The arcs that leave a node other than the exit are one or two. -/
theorem exists_arcs_from {n : ℕ} (hn : n < g.exit) : ∃ own : List Arc,
    (own.length = 1 ∨ own.length = 2) ∧ ∀ a, a ∈ own ↔ a ∈ g.arcs ∧ a.source = n := by
  cases n with
  | zero =>
    refine ⟨[⟨0, g.procedure.nodeAt 0, .enter⟩], Or.inl rfl, fun a => ?_⟩
    rw [List.mem_singleton, mem_arcs]
    constructor
    · rintro rfl
      exact ⟨Or.inl rfl, rfl⟩
    · rintro ⟨ha | ⟨i, s, own, _, hown, ha⟩, hsource⟩
      · exact ha
      · have hrange := Procedure.arcsOf_range hown ha
        omega
  | succ i =>
    have hlt : i < g.procedure.statements.length := by
      unfold exit at hn
      omega
    have hi := List.getElem?_eq_getElem hlt
    obtain ⟨own, hown⟩ := g.exists_arcsOf hi
    refine ⟨own, Procedure.length_arcsOf hown, fun a => ?_⟩
    rw [mem_arcs]
    constructor
    · intro ha
      exact ⟨Or.inr ⟨i, _, own, hi, hown, ha⟩, (Procedure.arcsOf_range hown ha).1⟩
    · rintro ⟨rfl | ⟨k, s, own', hk, hown', ha⟩, hsource⟩
      · cases hsource
      · have hrange := Procedure.arcsOf_range hown' ha
        obtain rfl : k = i := by omega
        cases hi.symm.trans hk
        cases hown.symm.trans hown'
        exact ha

theorem pairwise_lt_succs (n : ℕ) : (g.succs n).Pairwise (· < ·) :=
  List.pairwise_lt_range.filter _

theorem pairwise_lt_preds (n : ℕ) : (g.preds n).Pairwise (· < ·) :=
  List.pairwise_lt_range.filter _

theorem succs_eq_sorted {n : ℕ} {targets : List ℕ}
    (h : targets.Perm ((g.arcs.filter fun a => a.source == n).map Arc.target)) :
    g.succs n = (targets.mergeSort (· ≤ ·)).destutter (· ≠ ·) := by
  refine filter_range_eq_sorted h fun m hm => ?_
  obtain ⟨a, ha, rfl⟩ := List.mem_map.mp hm
  exact (g.arc_range (List.mem_filter.mp ha).1).2.2

theorem preds_eq_sorted {n : ℕ} {sources : List ℕ}
    (h : sources.Perm ((g.arcs.filter fun a => a.target == n).map Arc.source)) :
    g.preds n = (sources.mergeSort (· ≤ ·)).destutter (· ≠ ·) := by
  refine filter_range_eq_sorted h fun m hm => ?_
  obtain ⟨a, ha, rfl⟩ := List.mem_map.mp hm
  exact (g.arc_range (List.mem_filter.mp ha).1).1.trans g.exit_lt_size

theorem length_succs {n : ℕ} (hn : n < g.exit) :
    (g.succs n).length = 1 ∨ (g.succs n).length = 2 := by
  obtain ⟨own, hlen, hown⟩ := g.exists_arcs_from hn
  have hsub : g.succs n ⊆ own.map Arc.target := by
    intro m hm
    obtain ⟨a, ha, hsource, rfl⟩ := g.mem_succs.mp hm
    exact List.mem_map_of_mem ((hown a).mpr ⟨ha, hsource⟩)
  have hle : (g.succs n).length ≤ own.length := by
    have hnodup : (g.succs n).Nodup := (g.pairwise_lt_succs n).imp Nat.ne_of_lt
    simpa using (hnodup.subperm hsub).length_le
  have hpos : 0 < (g.succs n).length := by
    obtain ⟨a, ha⟩ := List.exists_mem_of_length_pos (l := own) (by omega)
    obtain ⟨harc, hsource⟩ := (hown a).mp ha
    exact List.length_pos_of_mem (g.mem_succs.mpr ⟨a, harc, hsource, rfl⟩)
  omega

theorem preds_entry : g.preds g.entry = [] := by
  refine List.eq_nil_iff_forall_not_mem.mpr fun m hm => ?_
  exact Nat.lt_irrefl _ (g.succ_range (g.mem_preds_iff_mem_succs.mp hm)).1

theorem succs_exit : g.succs g.exit = [] := by
  refine List.eq_nil_iff_forall_not_mem.mpr fun m hm => ?_
  exact Nat.lt_irrefl _ (g.pred_range (g.mem_preds_iff_mem_succs.mpr hm))

theorem mem_kinds {m n : ℕ} {k : ArcKind} : k ∈ g.kinds m n ↔ ⟨m, n, k⟩ ∈ g.arcs := by
  simp only [kinds, List.mem_reverse, List.mem_map, List.mem_filter, Bool.and_eq_true, beq_iff_eq]
  constructor
  · rintro ⟨a, ⟨ha, rfl, rfl⟩, rfl⟩
    exact ha
  · intro ha
    exact ⟨_, ⟨ha, rfl, rfl⟩, rfl⟩

theorem nodup_kinds (m n : ℕ) : (g.kinds m n).Nodup := by
  unfold kinds
  rw [List.nodup_reverse]
  refine List.Nodup.map_on ?_ (g.nodup_arcs.filter _)
  intro a ha b hb hkind
  simp only [List.mem_filter, Bool.and_eq_true, beq_iff_eq] at ha hb
  obtain ⟨_, hasource, hatarget⟩ := ha
  obtain ⟨_, hbsource, hbtarget⟩ := hb
  cases a
  cases b
  rw [Arc.mk.injEq]
  exact ⟨hasource.trans hbsource.symm, hatarget.trans hbtarget.symm, hkind⟩

theorem mem_succs_iff_kinds_ne_nil {m n : ℕ} : m ∈ g.succs n ↔ g.kinds n m ≠ [] := by
  rw [mem_succs]
  constructor
  · rintro ⟨a, ha, rfl, rfl⟩
    exact List.ne_nil_of_mem (g.mem_kinds.mpr ha)
  · intro h
    obtain ⟨k, hk⟩ := List.exists_mem_of_ne_nil _ h
    exact ⟨_, g.mem_kinds.mp hk, rfl, rfl⟩

/-- The nodes of `g` are the positions of `p`, each numbered one higher, behind an entry that
goes to the first of them. The end is the exit. Its arcs are the ways in which control may
go, each listed once. -/
structure Depicts (g : FlowGraph) (p : Procedure) : Prop where
  procedure_eq : g.procedure = p
  nodes_eq : g.nodes = List.range (p.statements.length + 2)
  entry_eq : g.entry = 0
  exit_eq : g.exit = p.statements.length + 1
  statement_entry : g.statement g.entry = .nop
  statement_exit : g.statement g.exit = .nop
  statement_node : ∀ i s, p.statements[i]? = some s →
    g.nodeOf? i = some (i + 1) ∧ g.statement (i + 1) = s
  leads_le : ∀ i s k j, p.statements[i]? = some s → p.Leads i s k j → j ≤ p.statements.length
  nodup_arcs : g.arcs.Nodup
  mem_arcs : ∀ a, a ∈ g.arcs ↔ a = ⟨g.entry, 1, .enter⟩ ∨ ∃ i s j,
    p.statements[i]? = some s ∧ p.Leads i s a.kind j ∧ a.source = i + 1 ∧ a.target = j + 1

/-- Successors, predecessors and kinds of arcs are readings of one list of arcs. Neighbours are
collected from it in whatever order, sorted and freed from repeats. -/
structure NeighboursAgree (g : FlowGraph) : Prop where
  succs_sorted : ∀ (n : ℕ) (targets : List ℕ),
    targets.Perm ((g.arcs.filter fun a => a.source == n).map Arc.target) →
      g.succs n = (targets.mergeSort (· ≤ ·)).destutter (· ≠ ·)
  preds_sorted : ∀ (n : ℕ) (sources : List ℕ),
    sources.Perm ((g.arcs.filter fun a => a.target == n).map Arc.source) →
      g.preds n = (sources.mergeSort (· ≤ ·)).destutter (· ≠ ·)
  succs_ascend : ∀ n, (g.succs n).Pairwise (· < ·)
  preds_ascend : ∀ n, (g.preds n).Pairwise (· < ·)
  mem_succs_iff_preds : ∀ m n, m ∈ g.succs n ↔ n ∈ g.preds m
  mem_succs_iff_kinds : ∀ m n, m ∈ g.succs n ↔ g.kinds n m ≠ []
  nodup_kinds : ∀ m n, (g.kinds n m).Nodup
  mem_kinds : ∀ m n k, k ∈ g.kinds n m ↔ ⟨n, m, k⟩ ∈ g.arcs
  preds_entry : g.preds g.entry = []
  succs_exit : g.succs g.exit = []
  length_succs : ∀ n ∈ g.nodes, n ≠ g.exit → (g.succs n).length = 1 ∨ (g.succs n).length = 2

theorem neighboursAgree : g.NeighboursAgree where
  succs_sorted _ _ h := g.succs_eq_sorted h
  preds_sorted _ _ h := g.preds_eq_sorted h
  succs_ascend := g.pairwise_lt_succs
  preds_ascend := g.pairwise_lt_preds
  mem_succs_iff_preds _ _ := g.mem_preds_iff_mem_succs.symm
  mem_succs_iff_kinds _ _ := g.mem_succs_iff_kinds_ne_nil
  nodup_kinds _ _ := g.nodup_kinds _ _
  mem_kinds _ _ _ := g.mem_kinds
  preds_entry := g.preds_entry
  succs_exit := g.succs_exit
  length_succs n hn hne := by
    have hlt := g.mem_nodes.mp hn
    unfold size at hlt
    unfold exit at hne
    apply g.length_succs
    unfold exit
    omega

theorem leads_le (hp : g.procedure.LabelsInRange) {i j : ℕ} {s : Statement} {k : ArcKind}
    (hi : g.procedure.statements[i]? = some s) (h : g.procedure.Leads i s k j) :
    j ≤ g.procedure.statements.length := by
  obtain ⟨hlt, _⟩ := List.getElem?_eq_some_iff.mp hi
  cases s with
  | jump l => exact hp l j h.2
  | branch b =>
    rcases h with ⟨_, h⟩ | ⟨_, rfl⟩
    · exact hp b.target j h
    · exact hlt
  | ret v => exact Nat.le_of_eq h.2
  | define | call | nop => exact h.2 ▸ hlt

/-- A label out of range would be taken for the end. -/
theorem mem_arcs_iff_leads (hp : g.procedure.LabelsInRange) {a : Arc} :
    a ∈ g.arcs ↔ a = ⟨g.entry, 1, .enter⟩ ∨ ∃ i s j, g.procedure.statements[i]? = some s ∧
      g.procedure.Leads i s a.kind j ∧ a.source = i + 1 ∧ a.target = j + 1 := by
  rw [mem_arcs, Procedure.nodeAt_of_le (Nat.zero_le _)]
  refine or_congr_right ⟨?_, ?_⟩
  · rintro ⟨i, s, own, hi, hown, ha⟩
    obtain ⟨hsource, j, hleads, htarget⟩ := (Procedure.mem_arcsOf_iff hown).mp ha
    rw [Procedure.nodeAt_of_le (g.leads_le hp hi hleads)] at htarget
    exact ⟨i, s, j, hi, hleads, hsource, htarget⟩
  · rintro ⟨i, s, j, hi, hleads, hsource, htarget⟩
    obtain ⟨own, hown⟩ := g.exists_arcsOf hi
    rw [← Procedure.nodeAt_of_le (g.leads_le hp hi hleads)] at htarget
    exact ⟨i, s, own, hi, hown, (Procedure.mem_arcsOf_iff hown).mpr ⟨hsource, j, hleads, htarget⟩⟩

theorem depicts_procedure (hp : g.procedure.LabelsInRange) : g.Depicts g.procedure where
  procedure_eq := rfl
  nodes_eq := rfl
  entry_eq := rfl
  exit_eq := rfl
  statement_entry := rfl
  statement_exit := by simp [statement, exit]
  statement_node i s hi := by
    obtain ⟨hlt, hs⟩ := List.getElem?_eq_some_iff.mp hi
    simp [nodeOf?, statement, hlt, hs]
  leads_le _ _ _ _ hi h := g.leads_le hp hi h
  nodup_arcs := g.nodup_arcs
  mem_arcs _ := g.mem_arcs_iff_leads hp

end FlowGraph

/-- A written procedure has a graph unless it jumps to a label that is not bound, and then the
first such jump is reported. The graph depicts the control flow of the procedure. -/
theorem Procedure.flowGraph_depicts_control (name : String) (es : List Edit) :
    let p := (named name).edits es
    ((∃ e, p.flowGraph = .error e) ↔ ∃ s ∈ p.statements, ∃ l, p.Dangling s l) ∧
    (∀ i s l, p.statements[i]? = some s → p.Dangling s l →
      (∀ t ∈ p.statements.take i, ∀ l', ¬p.Dangling t l') →
      p.flowGraph = .error (.unboundLabel l)) ∧
    ∀ g, p.flowGraph = .ok g → g.Depicts p ∧ g.NeighboursAgree := by
  intro p
  refine ⟨⟨?_, ?_⟩, ?_, ?_⟩
  · rintro ⟨e, he⟩
    obtain ⟨k, s, l, hk, hl, _⟩ := flowGraph_eq_error_iff.mp he
    exact ⟨s, List.mem_of_getElem? hk, l, hl⟩
  · rintro ⟨s, hs, l, hl⟩
    cases h : p.flowGraph with
    | error e => exact ⟨e, rfl⟩
    | ok g =>
      obtain ⟨i, hi⟩ := List.mem_iff_getElem?.mp hs
      rw [← procedure_of_flowGraph h] at hi hl
      exact absurd hl (exists_arcsOf_iff.mp (g.exists_arcsOf hi) l)
  · intro i s l hi hl hfirst
    exact flowGraph_eq_error_iff.mpr ⟨i, s, l, hi, hl, rfl, hfirst⟩
  · intro g hg
    have hp := procedure_of_flowGraph hg
    have hrange : p.LabelsInRange := labelsInRange_edits name es
    rw [← hp] at hrange ⊢
    exact ⟨g.depicts_procedure hrange, g.neighboursAgree⟩

/-- A branch to the statement behind it, a jump to itself and one to the end; and of two jumps
to labels that are not bound the earlier, to a label that was never created. -/
theorem Procedure.awkward_jumps_depicted :
    let b : Branch := ⟨⟨Sample.int 0 "x", Sample.int 0 "x", .comparison .lt⟩, ⟨0⟩⟩
    let es := [Sample.declareInt "x", .newLabel, .newLabel, .push (.branch b), .bind ⟨0⟩,
      .bind ⟨0⟩, .push (.jump ⟨0⟩), .push (.jump ⟨1⟩), .bind ⟨1⟩]
    let es' := es ++ [.newLabel, .push (.jump ⟨7⟩), .push (.jump ⟨2⟩)]
    let p := (named "f").edits es
    let q := (named "f").edits es'
    (∃ g, p.flowGraph = .ok g ∧ g.Depicts p ∧ g.NeighboursAgree ∧
      g.kinds 1 2 = [.ifFalse, .ifTrue] ∧ g.succs 2 = [2] ∧ g.succs 3 = [g.exit]) ∧
    q.Dangling (.jump ⟨7⟩) ⟨7⟩ ∧ q.Dangling (.jump ⟨2⟩) ⟨2⟩ ∧
      q.flowGraph = .error (.unboundLabel ⟨7⟩) := by
  intro b es es' p q
  have hseven : q.Dangling (.jump ⟨7⟩) ⟨7⟩ := ⟨rfl, fun t ht => by cases ht⟩
  have htwo : q.Dangling (.jump ⟨2⟩) ⟨2⟩ := ⟨rfl, fun t ht => by cases ht⟩
  obtain ⟨_, _, hdepicts⟩ := flowGraph_depicts_control "f" es
  obtain ⟨_, hfirst, _⟩ := flowGraph_depicts_control "f" es'
  refine ⟨?_, hseven, htwo, hfirst 3 _ ⟨7⟩ rfl hseven ?_⟩
  · obtain ⟨g, hg⟩ : ∃ g, p.flowGraph = .ok g := ⟨_, rfl⟩
    obtain ⟨hp, hn⟩ := hdepicts g hg
    refine ⟨g, hg, hp, hn, ?_⟩
    cases hg
    exact ⟨rfl, rfl, rfl⟩
  · have htake : q.statements.take 3 = [.branch b, .jump ⟨0⟩, .jump ⟨1⟩] := rfl
    rw [htake]
    intro t ht l hl
    simp only [List.mem_cons, List.not_mem_nil, or_false] at ht
    rcases ht with rfl | rfl | rfl
    · obtain ⟨⟨⟩, hl⟩ := hl
      exact hl 1 rfl
    · obtain ⟨⟨⟩, hl⟩ := hl
      exact hl 1 rfl
    · obtain ⟨⟨⟩, hl⟩ := hl
      exact hl 3 rfl

end ConstFlow
