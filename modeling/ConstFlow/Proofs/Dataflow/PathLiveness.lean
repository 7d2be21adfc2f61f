import ConstFlow.Dataflow.Liveness
import ConstFlow.Proofs.Collections.SetEquality
import ConstFlow.Proofs.Dataflow.LeastSolution
import ConstFlow.Proofs.Flow.Paths

/-! # Live variables are those that a path leads to

A variable is live at a node if a path that does not assign it leads to a statement that
reads it, or to the exit where it is wanted. Nothing else ever gets into a fact during a run,
since merging and transfer lengthen such paths by one node; and along such a path the facts of
a solution hand the variable on to its first node.
-/
namespace ConstFlow.Liveness

theorem contains_effect (s : Statement) (after : VariableSet) (x : Variable) :
    (effect s after).contains x = (!s.assigns x && after.contains x || s.reads x) := by
  unfold effect
  rw [OrderedSet.contains_foldl_insert, Statement.reads, Statement.assigns]
  cases s.assigned? with
  | none => simp
  | some y => simp [OrderedSet.contains_erase]

theorem effect_mono (s : Statement) : Monotone (effect s) := by
  intro f g h x hx
  rw [contains_effect, Bool.or_eq_true, Bool.and_eq_true] at hx ⊢
  exact hx.imp_left fun hx => ⟨hx.1, h x hx.2⟩

theorem lawful (settings : Settings) (atExit : VariableSet) :
    (analysis settings atExit).Lawful effect :=
  .of_replacing OrderedSet.beq_iff_le_le OrderedSet.empty_le (fun f t => t.isLUB_union f) effect_mono

/-- Some path leads from `n`, without an assignment to `x`, to a statement that reads `x` or
to the exit, where `x` is wanted. -/
def LiveAt (g : FlowGraph) (atExit : VariableSet) (n : ℕ) (x : Variable) : Prop :=
  (∃ ms k, g.ClearPath x n ms k ∧ (g.statement k).reads x = true) ∨
    ∃ ms, g.ClearPath x n ms g.exit ∧ atExit.contains x = true

section Paths
variable {g : FlowGraph} {atExit : VariableSet} {m n : ℕ} {x : Variable}

theorem LiveAt.of_reads (h : (g.statement n).reads x = true) : LiveAt g atExit n x :=
  Or.inl ⟨[], n, .nil x n, h⟩

theorem LiveAt.of_succ (hm : (g.statement m).assigns x = false) (hn : n ∈ g.succs m)
    (h : LiveAt g atExit n x) : LiveAt g atExit m x := by
  rcases h with ⟨ms, k, hpath, hk⟩ | ⟨ms, hpath, hx⟩
  · exact Or.inl ⟨_, k, hpath.cons hm hn, hk⟩
  · exact Or.inr ⟨_, hpath.cons hm hn, hx⟩

end Paths

section Solution
variable {settings : Settings} {atExit : VariableSet} {g : FlowGraph} {limit : ℕ}
variable {r : Solution VariableSet} (hr : (analysis settings atExit).solveWithin g limit = .ok r)
include hr

/-- Whatever is found live has a path. -/
theorem liveAt_of_contains (n : ℕ) :
    (∀ x, (r.after.get n).contains x = true → ∃ m ∈ g.succs n, LiveAt g atExit m x) ∧
      ∀ x, (r.before.get n).contains x = true → LiveAt g atExit n x := by
  refine Analysis.backward_facts rfl hr
    (fun n f => ∀ x, f.contains x = true → LiveAt g atExit n x)
    (fun n f => ∀ x, f.contains x = true → ∃ m ∈ g.succs n, LiveAt g atExit m x)
    (fun _ _ h => nomatch h) (fun _ _ h => nomatch h) ?_ ?_ ?_ n
  · intro x hx
    exact Or.inr ⟨[], .nil x g.exit, hx⟩
  · intro n m hm f t hf ht x hx
    change (t.union f).contains x = true at hx
    rw [OrderedSet.contains_union, Bool.or_eq_true] at hx
    rcases hx with hx | hx
    · exact ht x hx
    · exact ⟨m, hm, hf x hx⟩
  · intro n f o hf _ x hx
    have heffect := (lawful settings atExit).transfer_le (g.statement n) f o x hx
    rw [contains_effect, Bool.or_eq_true, Bool.and_eq_true, Bool.not_eq_true'] at heffect
    rcases heffect with ⟨hn, hx⟩ | hx
    · obtain ⟨m, hm, hlive⟩ := hf x hx
      exact hlive.of_succ hn hm
    · exact .of_reads hx

/-- Before a node are the variables after it that it does not assign, and those that it reads. -/
theorem contains_before {n : ℕ} (hn : n < g.exit) (x : Variable) :
    (r.before.get n).contains x =
      (!(g.statement n).assigns x && (r.after.get n).contains x || (g.statement n).reads x) := by
  have h := (lawful settings atExit).isLeastSolution_of_backward rfl hr
  have hbeq := h.output_beq n (g.mem_nodes_of_lt_exit hn) hn.ne
  rw [(OrderedSet.beq_iff_contains _ _).mp hbeq x, contains_effect]

/-- Nothing is live after the exit. -/
theorem lt_exit_of_contains_after {n : ℕ} (hn : n ∈ g.nodes) {x : Variable}
    (hx : (r.after.get n).contains x = true) : n < g.exit := by
  have h := (lawful settings atExit).isLeastSolution_of_backward rfl hr
  refine lt_of_le_of_ne (Nat.le_of_lt_succ (g.mem_nodes.mp hn)) ?_
  rintro rfl
  rw [h.input_origin] at hx
  cases hx

theorem contains_after_of_succ {m n : ℕ} (hn : n ∈ g.succs m) {x : Variable}
    (hx : (r.before.get n).contains x = true) : (r.after.get m).contains x = true := by
  have h := (lawful settings atExit).isLeastSolution_of_backward rfl hr
  have hm := g.pred_range (g.mem_preds_iff_mem_succs.mpr hn)
  exact h.output_le_input (g.mem_nodes_of_lt_exit hm) hm.ne hn x hx

/-- Along a path that does not assign a variable the facts pass it on. -/
theorem contains_of_clearPath {x : Variable} {n k : ℕ} {ms : List ℕ}
    (hpath : g.ClearPath x n ms k) (hk : (r.before.get k).contains x = true) :
    (r.before.get n).contains x = true := by
  obtain ⟨hpath, hclear⟩ := hpath
  induction hpath with
  | nil n => exact hk
  | @cons m l k ms hl _ ih =>
    obtain ⟨hm, hclear⟩ := List.forall_mem_cons.mp hclear
    have hlt := g.pred_range (g.mem_preds_iff_mem_succs.mpr hl)
    have hafter := contains_after_of_succ hr hl (ih hk hclear)
    rw [contains_before hr hlt, hm, hafter]
    rfl

theorem contains_of_liveAt {x : Variable} {n : ℕ} (hlive : LiveAt g atExit n x) :
    (r.before.get n).contains x = true := by
  have h := (lawful settings atExit).isLeastSolution_of_backward rfl hr
  rcases hlive with ⟨ms, k, hpath, hk⟩ | ⟨ms, hpath, hx⟩
  · refine contains_of_clearPath hr hpath ?_
    have hlt : k < g.exit := g.lt_exit_of_statement fun hnop => by
      rw [hnop] at hk
      cases hk
    rw [contains_before hr hlt, hk, Bool.or_true]
  · refine contains_of_clearPath hr hpath ?_
    rw [h.output_origin]
    exact hx

/-- The variables found before a node are those live there, and the variables found after it
are those found before its successors. -/
theorem solution_iff_liveAt :
    r.inFact? g.exit = some atExit ∧ r.outFact? g.exit = some .empty ∧
    ∀ n ∈ g.nodes, n ≠ g.exit → ∃ before after,
      r.inFact? n = some before ∧ r.outFact? n = some after ∧
      (∀ x, before.contains x = true ↔ LiveAt g atExit n x) ∧
      ∀ x, after.contains x = true ↔
        ∃ m ∈ g.succs n, ∃ f, r.inFact? m = some f ∧ f.contains x = true := by
  have h := (lawful settings atExit).isLeastSolution_of_backward rfl hr
  have hfacts := fun {n} hn => Analysis.facts_of_solveWithin (n := n) hr hn
  obtain ⟨hin, hout⟩ := hfacts (g.mem_nodes.mpr g.exit_lt_size)
  refine ⟨hin.trans (congrArg some h.output_origin), hout.trans (congrArg some h.input_origin), ?_⟩
  intro n hn hne
  obtain ⟨hin, hout⟩ := hfacts hn
  obtain ⟨hafter, hbefore⟩ := liveAt_of_contains hr n
  refine ⟨_, _, hin, hout, fun x => ⟨hbefore x, contains_of_liveAt hr⟩, fun x => ⟨?_, ?_⟩⟩
  · intro hx
    obtain ⟨m, hm, hlive⟩ := hafter x hx
    have hnode := g.mem_nodes_of_succ hm
    exact ⟨m, hm, _, (hfacts hnode).1, contains_of_liveAt hr hlive⟩
  · rintro ⟨m, hm, f, hf, hx⟩
    have hnode := g.mem_nodes_of_succ hm
    cases (hfacts hnode).1.symm.trans hf
    exact h.output_le_input hn hne hm x hx

end Solution

/-- The parameter of the loop at the return, where only a caller may still want it. -/
theorem parameter_live_at_return :
    ∃ r f, (analysis ⟨"live", 40⟩ (.ofList [Sample.int 0 "n"])).solve Sample.loop.graph = .ok r ∧
      r.inFact? 6 = some f ∧ f.contains (Sample.int 0 "n") = true ∧
      LiveAt Sample.loop.graph (.ofList [Sample.int 0 "n"]) 6 (Sample.int 0 "n") ∧
      ¬ LiveAt Sample.loop.graph (.ofList [Sample.int 0 "n"]) 6 (Sample.int 2 "one") := by
  obtain ⟨r, hr, hn, hone⟩ : ∃ r,
      (analysis ⟨"live", 40⟩ (.ofList [Sample.int 0 "n"])).solve Sample.loop.graph = .ok r ∧
      (r.before.get 6).contains (Sample.int 0 "n") = true ∧
      (r.before.get 6).contains (Sample.int 2 "one") = false := ⟨_, rfl, rfl, rfl⟩
  have hnode : 6 ∈ Sample.loop.graph.nodes := by decide
  obtain ⟨_, _, hsolution⟩ := solution_iff_liveAt hr
  obtain ⟨f, _, hin, _, hlive, _⟩ := hsolution 6 hnode (by decide)
  cases (Analysis.facts_of_solveWithin hr hnode).1.symm.trans hin
  refine ⟨r, _, hr, hin, hn, (hlive _).mp hn, ?_⟩
  rw [← hlive, hone]
  decide

end ConstFlow.Liveness
