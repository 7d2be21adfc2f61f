import ConstFlow.Dataflow.Assignment
import ConstFlow.Proofs.Collections.SetEquality
import ConstFlow.Proofs.Dataflow.LeastSolution
import ConstFlow.Proofs.Flow.Paths

/-! # Assigned variables are those that a path brings along

A variable may have been assigned before a node if a path of one arc or more leads there from a
statement that assigns it, or from the entry in the case of a parameter. The statement need not
be one that control can come to, because every node is visited. Nothing is ever taken out of a
fact, so whatever is found after the first node of a path is found before its last.
-/
namespace ConstFlow.Assignment

theorem contains_effect (s : Statement) (before : VariableSet) (x : Variable) :
    (effect s before).contains x = (s.assigns x || before.contains x) := by
  unfold effect Statement.assigns
  cases s.assigned? with
  | none => simp
  | some y => simp [OrderedSet.contains_insert]

theorem effect_mono (s : Statement) : Monotone (effect s) := by
  intro f g h x hx
  rw [contains_effect, Bool.or_eq_true] at hx ⊢
  exact hx.imp_right (h x)

theorem lawful (settings : Settings) : (analysis settings).Lawful effect :=
  .of_replacing OrderedSet.beq_iff_le_le OrderedSet.empty_le (fun f t => t.isLUB_union f) effect_mono

/-- The number of `x` is that of a parameter. -/
def IsParam (g : FlowGraph) (x : Variable) : Prop := ∃ y ∈ g.procedure.params, (y == x) = true

theorem contains_boundary (settings : Settings) (g : FlowGraph) (x : Variable) :
    ((analysis settings).boundary g).contains x = true ↔ IsParam g x := by
  change (OrderedSet.ofList g.procedure.params).contains x = true ↔ _
  rw [OrderedSet.ofList, OrderedSet.contains_foldl_insert]
  change (false || g.procedure.params.any (· == x)) = true ↔ _
  rw [Bool.false_or, List.any_eq_true]
  rfl

/-- A path of one arc or more leads to `n` from the entry, where parameters have their values,
or from a statement that assigns `x`. -/
def AssignedBefore (g : FlowGraph) (n : ℕ) (x : Variable) : Prop :=
  IsParam g x ∧ g.Reaches g.entry n ∨ ∃ m, (g.statement m).assigns x = true ∧ g.Reaches m n

/-- The same with paths that may be empty. -/
def AssignedAfter (g : FlowGraph) (n : ℕ) (x : Variable) : Prop :=
  n = g.entry ∧ IsParam g x ∨ (g.statement n).assigns x = true ∨ AssignedBefore g n x

theorem AssignedAfter.before {g : FlowGraph} {m n : ℕ} {x : Variable} (h : AssignedAfter g m x)
    (hn : n ∈ g.succs m) : AssignedBefore g n x := by
  have harc : g.Reaches m n := (FlowGraph.Path.nil m).reaches hn
  rcases h with ⟨rfl, hx⟩ | hx | ⟨hx, hreaches⟩ | ⟨k, hk, hreaches⟩
  · exact Or.inl ⟨hx, harc⟩
  · exact Or.inr ⟨m, hx, harc⟩
  · exact Or.inl ⟨hx, hreaches.concat hn⟩
  · exact Or.inr ⟨k, hk, hreaches.concat hn⟩

section Solution
variable {settings : Settings} {g : FlowGraph} {limit : ℕ} {r : Solution VariableSet}
variable (hr : (analysis settings).solveWithin g limit = .ok r)
include hr

/-- Whatever is found has come along a path. -/
theorem assigned_of_contains (n : ℕ) :
    (∀ x, (r.before.get n).contains x = true → AssignedBefore g n x) ∧
      ∀ x, (r.after.get n).contains x = true → AssignedAfter g n x := by
  -- every visit brings variables over one arc, so paths grow along with the facts
  refine Analysis.forward_facts rfl hr
    (fun n f => ∀ x, f.contains x = true → AssignedBefore g n x)
    (fun n f => ∀ x, f.contains x = true → AssignedAfter g n x)
    (fun _ _ h => nomatch h) (fun _ _ h => nomatch h) ?_ ?_ ?_ n
  · intro x hx
    exact Or.inl ⟨rfl, (contains_boundary settings g x).mp hx⟩
  · intro n m hm f t hf ht x hx
    change (t.union f).contains x = true at hx
    rw [OrderedSet.contains_union, Bool.or_eq_true] at hx
    rcases hx with hx | hx
    · exact ht x hx
    · exact (hf x hx).before (g.mem_preds_iff_mem_succs.mp hm)
  · intro n _ _ f o hf _ x hx
    have heffect := (lawful settings).transfer_le (g.statement n) f o x hx
    rw [contains_effect, Bool.or_eq_true] at heffect
    exact Or.inr (heffect.imp_right (hf x))

/-- After a node are the variables before it, and the one that it assigns. -/
theorem contains_after {n : ℕ} (hn : n ∈ g.nodes) (hne : n ≠ g.entry) (x : Variable) :
    (r.after.get n).contains x = ((g.statement n).assigns x || (r.before.get n).contains x) := by
  have h := (lawful settings).isLeastSolution_of_forward rfl hr
  rw [(OrderedSet.beq_iff_contains _ _).mp (h.output_beq n hn hne) x, contains_effect]

theorem contains_before_of_succ {m n : ℕ} (hn : n ∈ g.succs m) {x : Variable}
    (hx : (r.after.get m).contains x = true) : (r.before.get n).contains x = true :=
  ((lawful settings).isLeastSolution_of_forward rfl hr).output_le_input_of_succ hn x hx

/-- What is found before a node is found all along the paths from there. -/
theorem contains_of_path {x : Variable} {m n : ℕ} {ms : List ℕ} (hpath : g.Path m ms n)
    (hm : m ∈ g.nodes) (hne : m ≠ g.entry) (hx : (r.before.get m).contains x = true) :
    (r.before.get n).contains x = true := by
  induction hpath with
  | nil n => exact hx
  | @cons m k n ms hk _ ih =>
    have hafter : (r.after.get m).contains x = true := by
      rw [contains_after hr hm hne, hx, Bool.or_true]
    exact ih (g.mem_nodes_of_succ hk) (g.succ_range hk).1.ne' (contains_before_of_succ hr hk hafter)

theorem contains_of_reaches {x : Variable} {m n : ℕ} (hreaches : g.Reaches m n)
    (hx : (r.after.get m).contains x = true) : (r.before.get n).contains x = true := by
  obtain ⟨ms, hne, hpath⟩ := hreaches
  cases hpath with
  | nil => exact absurd rfl hne
  | @cons _ k _ ms hk hpath =>
    exact contains_of_path hr hpath (g.mem_nodes_of_succ hk) (g.succ_range hk).1.ne'
      (contains_before_of_succ hr hk hx)

theorem contains_of_assignedBefore {x : Variable} {n : ℕ} (h : AssignedBefore g n x) :
    (r.before.get n).contains x = true := by
  -- only the first fact of a path differs, the way on from it is the same
  rcases h with ⟨hx, hreaches⟩ | ⟨m, hx, hreaches⟩
  · refine contains_of_reaches hr hreaches ?_
    rw [((lawful settings).isLeastSolution_of_forward rfl hr).output_origin]
    exact (contains_boundary settings g x).mpr hx
  · refine contains_of_reaches hr hreaches ?_
    have hnop := Statement.ne_nop_of_assigns hx
    have hm := g.mem_nodes_of_lt_exit (g.lt_exit_of_statement hnop)
    have hne : m ≠ g.entry := by
      rintro rfl
      exact hnop rfl
    rw [contains_after hr hm hne, hx, Bool.true_or]

/-- The variables found before a node are those that a path brings along from an assignment,
and a node adds the one that it assigns. -/
theorem solution_iff_assigned :
    r.inFact? g.entry = some .empty ∧
    (∃ given, r.outFact? g.entry = some given ∧ ∀ x, given.contains x = true ↔ IsParam g x) ∧
    ∀ n ∈ g.nodes, n ≠ g.entry → ∃ before after,
      r.inFact? n = some before ∧ r.outFact? n = some after ∧
      (∀ x, before.contains x = true ↔ AssignedBefore g n x) ∧
      ∀ x, after.contains x = true ↔
        before.contains x = true ∨ (g.statement n).assigns x = true := by
  have h := (lawful settings).isLeastSolution_of_forward rfl hr
  have hfacts := fun {n} hn => Analysis.facts_of_solveWithin (n := n) hr hn
  have hentry : g.entry ∈ g.nodes := g.mem_nodes.mpr (Nat.succ_pos _)
  obtain ⟨hin, hout⟩ := hfacts hentry
  rw [h.input_origin] at hin
  rw [h.output_origin] at hout
  refine ⟨hin, ⟨_, hout, contains_boundary settings g⟩, ?_⟩
  intro n hn hne
  obtain ⟨hin, hout⟩ := hfacts hn
  obtain ⟨hbefore, _⟩ := assigned_of_contains hr n
  refine ⟨_, _, hin, hout, fun x => ⟨hbefore x, contains_of_assignedBefore hr⟩, fun x => ?_⟩
  rw [contains_after hr hn hne, Bool.or_eq_true, or_comm]

end Solution

/-- Jumps over `x = 1` to a branch that may go back to itself, and returns `x`. -/
def bypassed : Procedure :=
  let (p, x) := (Sample.int 0 "p", Sample.int 1 "x")
  (Procedure.named "bypassed").edits [Sample.declareInt "p" true, Sample.declareInt "x", .newLabel,
    .push (.jump ⟨0⟩), Sample.assign x (.int 1), .bind ⟨0⟩,
    .push (.branch ⟨⟨p, p, .comparison .lt⟩, ⟨0⟩⟩), .push (.ret (some x))]

def bypassedGraph : FlowGraph := ⟨bypassed, bypassed.arcs.toOption.getD [], rfl⟩

/-- The assignment that control never comes to is found at the return, and the parameter is not
found before it. -/
theorem bypassed_assignment_found :
    let p := Sample.int 0 "p"
    let x := Sample.int 1 "x"
    ∃ r f f', (analysis ⟨"assigned", 40⟩).solve bypassedGraph = .ok r ∧
      r.inFact? 2 = some f ∧ f.contains p = false ∧ ¬AssignedBefore bypassedGraph 2 p ∧
      r.inFact? 4 = some f' ∧ f'.contains p = true ∧ f'.contains x = true ∧
      AssignedBefore bypassedGraph 4 p ∧ AssignedBefore bypassedGraph 4 x := by
  intro p x
  obtain ⟨r, hr, hbefore, hp, hx⟩ : ∃ r,
      (analysis ⟨"assigned", 40⟩).solve bypassedGraph = .ok r ∧
      (r.before.get 2).contains (Sample.int 0 "p") = false ∧
      (r.before.get 4).contains (Sample.int 0 "p") = true ∧
      (r.before.get 4).contains (Sample.int 1 "x") = true := ⟨_, rfl, rfl, rfl, rfl⟩
  obtain ⟨_, _, hsolution⟩ := solution_iff_assigned hr
  have htwo : 2 ∈ bypassedGraph.nodes := by decide
  have hfour : 4 ∈ bypassedGraph.nodes := by decide
  obtain ⟨f, _, hin, _, hassigned, _⟩ := hsolution 2 htwo (by decide)
  obtain ⟨f', _, hin', _, hassigned', _⟩ := hsolution 4 hfour (by decide)
  cases (Analysis.facts_of_solveWithin hr htwo).1.symm.trans hin
  cases (Analysis.facts_of_solveWithin hr hfour).1.symm.trans hin'
  refine ⟨r, _, _, hr, hin, hbefore, ?_, hin', hp, hx, (hassigned' _).mp hp, (hassigned' _).mp hx⟩
  rw [← hassigned, hbefore]
  decide

end ConstFlow.Assignment
