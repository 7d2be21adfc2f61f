import ConstFlow.Proofs.Constants.DefiniteAssignment
import ConstFlow.Proofs.Dataflow.PathLiveness
import ConstFlow.Proofs.Flow.Rewriting

/-! # Dead definitions

A definition of a variable that is not live may be dropped without a change to what constant
propagation finds of the live variables. No lockstep of the two runs is needed: whatever one
of them has found so far of the live variables lies below the solution of the other, because
a statement that keeps a live variable passes on its value, and one that sets it reads live
variables only. This holds in both directions.
-/
namespace ConstFlow

/-- Parameters and targets of definitions are declared variables, so that those with the same
id are of the same type. -/
def Procedure.DeclaresTargets (p : Procedure) : Prop :=
  ∀ x ∈ p.params ++ p.statements.filterMap Statement.assigned?, p.variableOf x.id = .ok x

theorem Procedure.DeclaresTargets.eq_of_id {p : Procedure} (h : p.DeclaresTargets) {x y : Variable}
    (hx : x ∈ p.params ++ p.statements.filterMap Statement.assigned?)
    (hy : y ∈ p.params ++ p.statements.filterMap Statement.assigned?) (hid : x.id = y.id) :
    x = y := by
  have hdeclared := h x hx
  rw [hid, h y hy] at hdeclared
  exact (Except.ok.inj hdeclared).symm

namespace Statement

theorem assigns_of_intDefinition {s : Statement} {x : Variable} {e : Expression}
    (h : s.intDefinition? = some (x, e)) (v : Variable) : s.assigns v = (x == v) := by
  rw [(intDefinition?_eq_some_iff.mp h).1]
  rfl

theorem reads_of_mem_lookups {s : Statement} {x : Variable} {e : Expression}
    (h : s.intDefinition? = some (x, e)) {u : Variable} (hu : u ∈ e.lookups) :
    s.reads u = true := by
  rw [(intDefinition?_eq_some_iff.mp h).1]
  have huses : u ∈ e.uses ++ (Place.var x).uses := List.mem_append_left _ (e.lookups_subset_uses hu)
  exact List.any_eq_true.mpr ⟨u, huses, BEq.rfl⟩

/-- Nothing, where the statement defines a variable that is not live after it. -/
def pruned (s : Statement) (live : VariableSet) : Statement :=
  match s.assigned? with
  | some x => if live.contains x then s else .nop
  | none => s

theorem pruned_cases (s : Statement) (live : VariableSet) : s.pruned live = s ∨
    s.pruned live = .nop ∧ ∃ x, s.assigned? = some x ∧ live.contains x = false := by
  unfold pruned
  split
  · rename_i x hx
    by_cases hlive : live.contains x = true
    · exact Or.inl (if_pos hlive)
    · exact Or.inr ⟨if_neg hlive, x, hx, Bool.eq_false_iff.mpr hlive⟩
  · exact Or.inl rfl

end Statement

namespace ConstantPropagation

section Effects
variable {s : Statement} {f f' : Valuation} {v : Variable}

theorem get_effect_of_not_assigns (h : s.assigns v = false) (f : Valuation) :
    (effect s f).get v = f.get v := by
  cases hd : s.intDefinition? with
  | none => rw [effect_of_not_intDefinition hd]
  | some d =>
    rw [Statement.assigns_of_intDefinition hd] at h
    rw [get_effect hd, if_neg (Bool.eq_false_iff.mp h)]

/-- What a variable has after a statement depends on itself if the statement does not assign
it, and otherwise on the variables that the statement reads. -/
theorem get_effect_le (hkept : s.assigns v = false → f.get v ≤ f'.get v)
    (hreads : ∀ u, s.reads u = true → f.get u ≤ f'.get u)
    (hunfollowed : ∀ x, s.assigned? = some x → x.holdsInt = false → f.get x = .undefined) :
    (effect s f).get v ≤ (effect s f').get v := by
  cases hv : s.assigns v with
  | false =>
    rw [get_effect_of_not_assigns hv, get_effect_of_not_assigns hv]
    exact hkept hv
  | true =>
    cases hd : s.intDefinition? with
    | some d =>
      rw [Statement.assigns_of_intDefinition hd] at hv
      rw [get_effect hd, get_effect hd, if_pos hv, if_pos hv]
      exact Expression.evaluate_le_evaluate fun u hu =>
        hreads u (Statement.reads_of_mem_lookups hd hu)
    | none =>
      obtain ⟨x, hx, hxv⟩ := (Option.any_eq_true _ _).mp hv
      have hint : x.holdsInt = false := by
        obtain ⟨e, rfl⟩ := Statement.assigned?_eq_some_iff.mp hx
        refine Bool.eq_false_iff.mpr fun hint => ?_
        rw [Statement.intDefinition?_eq_some_iff.mpr ⟨rfl, hint⟩] at hd
        cases hd
      have hundefined : f.get v = .undefined := by
        rw [← f.get_congr hxv]
        exact hunfollowed x hx hint
      rw [effect_of_not_intDefinition hd, hundefined]
      exact Value.undefined_le _

end Effects

/-- The values that a variable takes on in a run stay below those of a solution for other
statements, where the variable is live and the other statements do no less to live variables. -/
theorem get_le_of_live {settings : Settings} {g : FlowGraph} {r : Solution Valuation}
    (hr : (analysis settings).solve g = .ok r) {effect' : ℕ → Valuation → Valuation}
    {before' after' : ℕ → Valuation}
    (h' : IsLeastSolution g.nodes g.entry g.preds effect' .empty (boundary g) before' after')
    {liveBefore liveAfter : ℕ → VariableSet}
    (hlive : ∀ n, ∀ m ∈ g.preds n, liveBefore n ≤ liveAfter m)
    (heffect : ∀ n ∈ g.nodes, n ≠ g.entry → ∀ f, f.Within (trackedIds g) →
      (∀ v, (liveBefore n).contains v = true → f.get v ≤ (before' n).get v) →
      ∀ v, (liveAfter n).contains v = true →
        (effect (g.statement n) f).get v ≤ (effect' n (before' n)).get v)
    (n : ℕ) (v : Variable) (hv : (liveBefore n).contains v = true) :
    (r.before.get n).get v ≤ (before' n).get v := by
  have hempty : Valuation.empty.Within (trackedIds g) := fun x hx => absurd rfl hx
  have hfacts := Analysis.forward_facts rfl hr
    (fun n f => f.Within (trackedIds g) ∧
      ∀ v, (liveBefore n).contains v = true → f.get v ≤ (before' n).get v)
    (fun n f => f.Within (trackedIds g) ∧
      ∀ v, (liveAfter n).contains v = true → f.get v ≤ (after' n).get v)
    (fun _ => ⟨hempty, fun _ _ => Value.undefined_le _⟩)
    (fun _ => ⟨hempty, fun _ _ => Value.undefined_le _⟩) ?_ ?_ ?_ n
  · exact hfacts.1.2 v hv
  · refine ⟨within_boundary, fun v _ => ?_⟩
    rw [h'.output_origin]
    exact le_rfl
  · rintro n m hm f t ⟨hf, hfle⟩ ⟨ht, htle⟩
    refine ⟨hf.mergeInto ht, fun v hv => ?_⟩
    -- a variable that is live before `n` is so after `m`, and the solution has merged its value
    have harrived : f.get v ≤ (before' n).get v :=
      (hfle v (hlive n m hm v hv)).trans
        (h'.output_le_input_of_succ (g.mem_preds_iff_mem_succs.mp hm) v)
    change (f.mergeInto t).get v ≤ _
    rw [Valuation.get_mergeInto]
    exact Value.join_le (htle v hv) harrived
  · rintro n hn hne f o ⟨hf, hfle⟩ _
    -- outputs are the effects on the inputs up to `==`, here as in the solution
    have hbeq := (lawful settings).transfer_beq (g.statement n) f o
    refine ⟨(within_effect hf n).of_beq hbeq, fun v hv => ?_⟩
    have hbeq' := h'.output_beq n hn hne
    rw [(Valuation.beq_iff_get _ _).mp hbeq v, (Valuation.beq_iff_get _ _).mp hbeq' v]
    exact heffect n hn hne f hf hfle v hv

/-- Drops the chosen definitions that are dead, statements at other nodes staying as they are. -/
def pruneAt (chosen : ℕ → Bool) (live : ℕ → VariableSet) (i : ℕ) (s : Statement) : Statement :=
  if chosen (i + 1) then s.pruned (live (i + 1)) else s

theorem pruneAt_cases (chosen : ℕ → Bool) (live : ℕ → VariableSet) (i : ℕ) (s : Statement) :
    pruneAt chosen live i s = s ∨ pruneAt chosen live i s = .nop ∧
      ∃ x, s.assigned? = some x ∧ (live (i + 1)).contains x = false := by
  unfold pruneAt
  split
  · exact s.pruned_cases (live (i + 1))
  · exact Or.inl rfl

theorem keepsFlow_pruneAt (chosen : ℕ → Bool) (live : ℕ → VariableSet) :
    KeepsFlow (pruneAt chosen live) where
  arcsOf_eq p i j s := by
    obtain hs | ⟨hs, x, hx, _⟩ := pruneAt_cases chosen live j s
    · rw [hs]
    · obtain ⟨e, rfl⟩ := Statement.assigned?_eq_some_iff.mp hx
      rw [hs]
      rfl
  nop_eq i := ite_self _

end ConstantPropagation

/-- The procedure without the dead definitions at chosen nodes. -/
def Procedure.pruned (p : Procedure) (chosen : ℕ → Bool) (live : ℕ → VariableSet) : Procedure :=
  p.rewrite (ConstantPropagation.pruneAt chosen live)

/-- The graph of the procedure without the dead definitions at chosen nodes. -/
def FlowGraph.pruned (g : FlowGraph) (chosen : ℕ → Bool) (live : ℕ → VariableSet) : FlowGraph :=
  g.rewrite _ (ConstantPropagation.keepsFlow_pruneAt chosen live)

namespace ConstantPropagation

section Pruning
variable {g : FlowGraph} {chosen : ℕ → Bool} {live : ℕ → VariableSet}

theorem nodes_pruned : (g.pruned chosen live).nodes = g.nodes := FlowGraph.nodes_rewrite

theorem preds_pruned : (g.pruned chosen live).preds = g.preds := FlowGraph.preds_rewrite

theorem trackedIds_pruned_subset : trackedIds (g.pruned chosen live) ⊆ trackedIds g := by
  intro i hi
  obtain ⟨x, hint, hid, hx⟩ := mem_trackedIds.mp hi
  refine mem_trackedIds.mpr ⟨x, hint, hid, hx.imp_right ?_⟩
  rintro ⟨s, hs, hassigned⟩
  obtain ⟨k, hk, rfl⟩ := List.mem_mapIdx.mp hs
  obtain hsame | ⟨hnop, _⟩ := pruneAt_cases chosen live k g.procedure.statements[k]
  · rw [hsame] at hassigned
    exact ⟨_, List.getElem_mem hk, hassigned⟩
  · rw [hnop] at hassigned
    cases hassigned

/-- Targets that are not followed share their ids with no variable that is. -/
theorem get_eq_undefined_of_unfollowed (hdeclares : g.procedure.DeclaresTargets) {f : Valuation}
    (hf : f.Within (trackedIds g)) {n : ℕ} {x : Variable}
    (hx : (g.statement n).assigned? = some x) (hint : x.holdsInt = false) :
    f.get x = .undefined := by
  by_contra hdefined
  obtain ⟨y, hy, hid, hmem⟩ := mem_trackedIds.mp (hf x hdefined)
  have hne : g.statement n ≠ .nop := by
    intro hnop
    rw [hnop] at hx
    cases hx
  have hxmem := List.mem_filterMap.mpr ⟨_, g.statement_mem hne, hx⟩
  have hymem : y ∈ g.procedure.params ++ g.procedure.statements.filterMap Statement.assigned? :=
    List.mem_append.mpr (hmem.imp_right List.mem_filterMap.mpr)
  obtain rfl := hdeclares.eq_of_id hymem (List.mem_append_right _ hxmem) hid
  rw [hint] at hy
  cases hy

/-- A dropped definition does nothing to the variables that are live after it. -/
theorem get_effect_pruned {n : ℕ} (hn : n ≠ g.entry) (f : Valuation) {v : Variable}
    (hv : (live n).contains v = true) :
    (effect ((g.pruned chosen live).statement n) f).get v = (effect (g.statement n) f).get v := by
  obtain ⟨i, rfl⟩ := Nat.exists_eq_succ_of_ne_zero hn
  rw [FlowGraph.pruned, FlowGraph.statement_rewrite]
  obtain hsame | ⟨hnop, x, hx, hdead⟩ := pruneAt_cases chosen live i (g.statement (i + 1))
  · rw [hsame]
  · have hassigns : (g.statement (i + 1)).assigns v = false := by
      rw [Statement.assigns, hx]
      refine Bool.eq_false_iff.mpr fun hxv => ?_
      rw [(live (i + 1)).contains_congr hxv, hv] at hdead
      cases hdead
    rw [hnop, effect_of_not_intDefinition rfl, get_effect_of_not_assigns hassigns]

section Solutions
variable {liveSettings : Settings} {live : Solution VariableSet}
variable (hdeclares : g.procedure.DeclaresTargets)
variable (hlive : (Liveness.analysis liveSettings).solve g = .ok live)
include hdeclares hlive

/-- What is ordered on the variables live before a node is so on those live after it. -/
theorem get_effect_le_of_live {n : ℕ} (hn : n ∈ g.nodes) {f f' : Valuation}
    (hf : f.Within (trackedIds g))
    (hle : ∀ u, (live.before.get n).contains u = true → f.get u ≤ f'.get u) {v : Variable}
    (hv : (live.after.get n).contains v = true) :
    (effect (g.statement n) f).get v ≤ (effect (g.statement n) f').get v := by
  have hbefore := Liveness.contains_before hlive (Liveness.lt_exit_of_contains_after hlive hn hv)
  refine get_effect_le (fun hassigns => hle v ?_) (fun u hu => hle u ?_)
    (fun x hx => get_eq_undefined_of_unfollowed hdeclares hf hx)
  · rw [hbefore, hassigns, hv]
    rfl
  · rw [hbefore, hu, Bool.or_true]

omit hdeclares in
theorem live_before_le_after (n : ℕ) : ∀ m ∈ g.preds n, live.before.get n ≤ live.after.get m :=
  fun _ hm _ hv => Liveness.contains_after_of_succ hlive (g.mem_preds_iff_mem_succs.mp hm) hv

variable {settings settings' : Settings} {r r' : Solution Valuation}
variable (hr : (analysis settings).solve g = .ok r)
variable (hr' : (analysis settings').solve (g.pruned chosen live.after.get) = .ok r')
include hr hr'

theorem live_le_pruned (n : ℕ) (v : Variable) (hv : (live.before.get n).contains v = true) :
    (r.before.get n).get v ≤ (r'.before.get n).get v := by
  have h' := (lawful settings').isLeastSolution_of_forward rfl hr'
  rw [nodes_pruned, preds_pruned] at h'
  refine get_le_of_live hr h' (live_before_le_after hlive) ?_ n v hv
  intro n hn hne f hf hle v hv
  rw [get_effect_pruned hne _ hv]
  exact get_effect_le_of_live hdeclares hlive hn hf hle hv

theorem pruned_le_live (n : ℕ) (v : Variable) (hv : (live.before.get n).contains v = true) :
    (r'.before.get n).get v ≤ (r.before.get n).get v := by
  have hnodes : (g.pruned chosen live.after.get).nodes = g.nodes := nodes_pruned
  have hpreds : (g.pruned chosen live.after.get).preds = g.preds := preds_pruned
  have h := (lawful settings).isLeastSolution_of_forward rfl hr
  rw [← hnodes, ← hpreds] at h
  refine get_le_of_live hr' h (hpreds ▸ live_before_le_after hlive) ?_ n v hv
  intro n hn (hne : n ≠ g.entry) f hf hle v hv
  rw [hnodes] at hn
  have hf' : f.Within (trackedIds g) := fun x hx => trackedIds_pruned_subset (hf x hx)
  rw [get_effect_pruned hne _ hv]
  exact get_effect_le_of_live hdeclares hlive hn hf' hle hv

end Solutions
end Pruning

/-- Replacing any definitions of variables that are dead after them leaves a procedure with a
graph, and both solutions agree on the variables that are live before a node. -/
theorem dead_definitions_unseen {settings settings' liveSettings : Settings} {g : FlowGraph}
    (hdeclares : g.procedure.DeclaresTargets) {live : Solution VariableSet}
    (hlive : (Liveness.analysis liveSettings).solve g = .ok live) (chosen : ℕ → Bool) :
    ∃ g', (g.procedure.pruned chosen live.after.get).flowGraph = .ok g' ∧
      ∀ r r', (analysis settings).solve g = .ok r → (analysis settings').solve g' = .ok r' →
        ∀ n ∈ g.nodes, ∃ f f' alive, r.inFact? n = some f ∧ r'.inFact? n = some f' ∧
          live.inFact? n = some alive ∧ ∀ v, alive.contains v = true → f.get v = f'.get v := by
  let g' := g.pruned chosen live.after.get
  refine ⟨g', g'.flowGraph_procedure, fun r r' hr hr' n hn => ?_⟩
  have hn' : n ∈ g'.nodes := nodes_pruned.symm ▸ hn
  have hin := (Analysis.facts_of_solveWithin hr hn).1
  have hin' := (Analysis.facts_of_solveWithin hr' hn').1
  have halive := (Analysis.facts_of_solveWithin hlive hn).1
  refine ⟨_, _, _, hin, hin', halive, fun v hv => le_antisymm ?_ ?_⟩
  · exact live_le_pruned hdeclares hlive hr hr' n v hv
  · exact pruned_le_live hdeclares hlive hr hr' n v hv

/-- Returns `y`, which each round of a loop sets, if `twice` to the parameter before. -/
def overwritten (twice : Bool) : Procedure :=
  let (n, x, y) := (Sample.int 0 "n", Sample.int 1 "x", Sample.int 2 "y")
  (Procedure.named "overwritten").edits [Sample.declareInt "n" true, Sample.declareInt "x",
    Sample.declareInt "y", .newLabel, Sample.assign x (.int 1), .bind ⟨0⟩,
    .push (if twice then .define ⟨.var y, .var n⟩ else .nop), Sample.assign y (.var x),
    .push (.branch ⟨⟨x, n, .comparison .lt⟩, ⟨0⟩⟩), .push (.ret (some y))]

def overwrittenGraph (twice : Bool) : FlowGraph :=
  ⟨overwritten twice, (overwritten twice).arcs.toOption.getD [], by cases twice <;> rfl⟩

/-- `y = n` may go, since `y = x` follows. The values before `y = x` differ, and those at the
return do not. -/
theorem overwritten_parameter_unseen :
    let y := Sample.int 2 "y"
    (overwritten true).DeclaresTargets ∧
    ∃ live r r', (Liveness.analysis ⟨"live", 40⟩).solve (overwrittenGraph true) = .ok live ∧
      (overwritten true).pruned (fun _ => true) live.after.get = overwritten false ∧
      analysis.solve (overwrittenGraph true) = .ok r ∧
      analysis.solve (overwrittenGraph false) = .ok r' ∧
      (r.before.get 3).get y ≠ (r'.before.get 3).get y ∧
      ∃ f f', r.inFact? 5 = some f ∧ r'.inFact? 5 = some f' ∧ f.get y = f'.get y := by
  intro y
  have hdeclares : (overwritten true).DeclaresTargets :=
    List.forall_mem_cons.mpr ⟨rfl, List.forall_mem_cons.mpr ⟨rfl,
      List.forall_mem_cons.mpr ⟨rfl, List.forall_mem_singleton.mpr rfl⟩⟩⟩
  obtain ⟨live, hlive, hpruned, hy⟩ : ∃ live,
      (Liveness.analysis ⟨"live", 40⟩).solve (overwrittenGraph true) = .ok live ∧
      (overwritten true).pruned (fun _ => true) live.after.get = overwritten false ∧
      (live.before.get 5).contains (Sample.int 2 "y") = true := ⟨_, rfl, rfl, rfl⟩
  obtain ⟨r, hr, hnac⟩ : ∃ r, analysis.solve (overwrittenGraph true) = .ok r ∧
      (r.before.get 3).get (Sample.int 2 "y") = .nac := ⟨_, rfl, rfl⟩
  obtain ⟨r', hr', hone⟩ : ∃ r', analysis.solve (overwrittenGraph false) = .ok r' ∧
      (r'.before.get 3).get (Sample.int 2 "y") = .constant 1 := ⟨_, rfl, rfl⟩
  obtain ⟨g', hg', hsame⟩ :=
    @dead_definitions_unseen settings settings _ (overwrittenGraph true) hdeclares _ hlive
      (fun _ => true)
  have hgraph : (overwritten false).flowGraph = .ok (overwrittenGraph false) :=
    (overwrittenGraph false).flowGraph_procedure
  obtain rfl : g' = overwrittenGraph false := by
    change ((overwritten true).pruned _ _).flowGraph = .ok g' at hg'
    rw [hpruned, hgraph] at hg'
    exact (Except.ok.inj hg').symm
  obtain ⟨f, f', alive, hf, hf', halive, hget⟩ := hsame r r' hr hr' 5 (by decide)
  have hin := (Analysis.facts_of_solveWithin hlive (n := 5) (by decide)).1
  cases hin.symm.trans halive
  have hne : (r.before.get 3).get y ≠ (r'.before.get 3).get y := by
    rw [hnac, hone]
    exact Value.noConfusion
  exact ⟨hdeclares, live, r, r', hlive, hpruned, hr, hr', hne, f, f', hf, hf', hget y hy⟩

end ConstantPropagation
end ConstFlow
