import ConstFlow.Proofs.Constants.Termination
import ConstFlow.Proofs.Dataflow.LeastSolution
import ConstFlow.Proofs.Flow.Paths

/-! # Definitions that have arrived

A value is undefined only where no definition has arrived. This holds along every path on
which variables are defined before they are read, provided that evaluation looks up no
variables but those that are followed: then each statement of the path passes on defined
values, and what comes in from elsewhere does not take them back. Variables that are not
followed never have a value, so a definition by nothing else leaves its variable undefined.
-/
namespace ConstFlow

theorem Operator.combine_ne_undefined (op : Operator) {a b : Value} (ha : a ≠ .undefined)
    (hb : b ≠ .undefined) : op.combine a b ≠ .undefined := by
  cases a with
  | undefined => exact absurd rfl ha
  | nac => simp
  | constant y =>
    cases b with
    | undefined => exact absurd rfl hb
    | nac => simp
    | constant z =>
      rw [combine_constants]
      split
      · exact Value.noConfusion
      · exact Value.noConfusion

namespace Expression

variable {e : Expression} {f : Valuation}

theorem evaluate_ne_undefined (h : ∀ x ∈ e.lookups, f.get x ≠ .undefined) :
    e.evaluate f ≠ .undefined := by
  cases e with
  | var x => exact h x List.mem_cons_self
  | binary t =>
    have hright : t.right ∈ t.uses := List.mem_cons_of_mem _ List.mem_cons_self
    exact t.op.combine_ne_undefined (h t.left List.mem_cons_self) (h t.right hright)
  | int | long | neg | cast | field | element | call | alloc => exact Value.noConfusion

theorem evaluate_eq_undefined (hne : e.lookups ≠ []) (h : ∀ x ∈ e.lookups, f.get x = .undefined) :
    e.evaluate f = .undefined := by
  cases e with
  | var x => exact h x List.mem_cons_self
  | binary t =>
    have hright : t.right ∈ t.uses := List.mem_cons_of_mem _ List.mem_cons_self
    rw [evaluate_binary, h t.left List.mem_cons_self, h t.right hright]
    rfl
  | int | long | neg | cast | field | element | call | alloc => exact absurd rfl hne

end Expression

namespace Statement
variable {s : Statement} {x : Variable}

theorem assigned?_eq_some_iff : s.assigned? = some x ↔ ∃ e, s = .define ⟨.var x, e⟩ := by
  constructor
  · intro h
    obtain ⟨⟨place, e⟩, hd, hplace⟩ := Option.bind_eq_some_iff.mp h
    cases s with
    | define d =>
      cases hd
      cases place with
      | var y =>
        cases hplace
        exact ⟨e, rfl⟩
      | field | element => cases hplace
    | branch | jump | call | ret | nop => cases hd
  · rintro ⟨e, rfl⟩
    rfl

/-- The assignments that are followed are the definitions of integers. -/
theorem any_assigned?_iff : s.assigned?.any (fun y => y.holdsInt && y == x) = true ↔
    ∃ y e, s.intDefinition? = some (y, e) ∧ (y == x) = true := by
  rw [Option.any_eq_true]
  constructor
  · rintro ⟨y, hy, h⟩
    obtain ⟨hint, hyx⟩ := Bool.and_eq_true_iff.mp h
    obtain ⟨e, rfl⟩ := assigned?_eq_some_iff.mp hy
    exact ⟨y, e, intDefinition?_eq_some_iff.mpr ⟨rfl, hint⟩, hyx⟩
  · rintro ⟨y, e, hd, hyx⟩
    obtain ⟨rfl, hint⟩ := intDefinition?_eq_some_iff.mp hd
    exact ⟨y, rfl, Bool.and_eq_true_iff.mpr ⟨hint, hyx⟩⟩

end Statement

namespace FlowGraph
variable (g : FlowGraph)

/-- Whether `x` is a parameter or defined at one of the nodes `ms`, and followed as such. -/
def arrived (ms : List ℕ) (x : Variable) : Bool :=
  (g.procedure.params ++ ms.filterMap fun m => (g.statement m).assigned?).any
    fun y => y.holdsInt && y == x

/-- Whatever is followed and read on the way has arrived where it is read. -/
def UseDefined (ms : List ℕ) : Prop :=
  ∀ i, ∀ h : i < ms.length, ∀ x ∈ (g.statement ms[i]).uses, x.holdsInt = true →
    g.arrived (ms.take i) x = true

instance (ms : List ℕ) : Decidable (g.UseDefined ms) :=
  inferInstanceAs (Decidable (∀ i, ∀ h : i < ms.length, ∀ x ∈ (g.statement ms[i]).uses,
    x.holdsInt = true → g.arrived (ms.take i) x = true))

/-- Where a followed variable is defined, evaluation looks up followed variables only. -/
def LooksUpFollowed (ms : List ℕ) : Prop :=
  ∀ m ∈ ms, ∀ d ∈ (g.statement m).intDefinition?, ∀ x ∈ d.2.lookups, x.holdsInt = true

instance (ms : List ℕ) : Decidable (g.LooksUpFollowed ms) :=
  inferInstanceAs (Decidable (∀ m ∈ ms, ∀ d ∈ (g.statement m).intDefinition?,
    ∀ x ∈ d.2.lookups, x.holdsInt = true))

variable {g} {ms : List ℕ} {m : ℕ} {x : Variable}

theorem arrived_concat_iff : g.arrived (ms ++ [m]) x = true ↔ g.arrived ms x = true ∨
    ∃ y e, (g.statement m).intDefinition? = some (y, e) ∧ (y == x) = true := by
  unfold arrived
  rw [← Statement.any_assigned?_iff, List.filterMap_append, ← List.append_assoc, List.any_append,
    Bool.or_eq_true]
  cases h : (g.statement m).assigned? with
  | none => simp [h]
  | some y => simp [h]

theorem UseDefined.of_concat (h : g.UseDefined (ms ++ [m])) : g.UseDefined ms ∧
    ∀ x ∈ (g.statement m).uses, x.holdsInt = true → g.arrived ms x = true := by
  constructor
  · intro i hi
    have hlt : i < (ms ++ [m]).length := by
      rw [List.length_append]
      omega
    have huses := h i hlt
    rw [List.getElem_append_left hi, List.take_append_of_le_length hi.le] at huses
    exact huses
  · have hlt : ms.length < (ms ++ [m]).length := by
      rw [List.length_append, List.length_singleton]
      omega
    have huses := h ms.length hlt
    rw [List.getElem_concat_length rfl, List.take_left] at huses
    exact huses

end FlowGraph

namespace ConstantPropagation

/-- All that has arrived after the nodes `ms` has a value. -/
def Covers (g : FlowGraph) (ms : List ℕ) (f : Valuation) : Prop :=
  ∀ x, g.arrived ms x = true → f.get x ≠ .undefined

section Paths
variable {g : FlowGraph} {ms : List ℕ} {m n : ℕ} {f f' : Valuation}

theorem Covers.mono (hf : Covers g ms f) (h : f ≤ f') : Covers g ms f' := by
  intro x hx hundefined
  have hle := h x
  rw [hundefined] at hle
  exact hf x hx (le_antisymm hle (Value.undefined_le _))

theorem covers_boundary (g : FlowGraph) : Covers g [g.entry] (boundary g) := by
  intro x hx
  change (g.procedure.params ++ []).any (fun y => y.holdsInt && y == x) = true at hx
  rw [List.append_nil] at hx
  rw [get_boundary, if_pos hx]
  exact Value.noConfusion

/-- A statement that reads only what has arrived passes on defined values. -/
theorem covers_effect (hf : Covers g ms f)
    (huses : ∀ x ∈ (g.statement m).uses, x.holdsInt = true → g.arrived ms x = true)
    (hlookups : ∀ d ∈ (g.statement m).intDefinition?, ∀ x ∈ d.2.lookups, x.holdsInt = true) :
    Covers g (ms ++ [m]) (effect (g.statement m) f) := by
  intro x hx
  rw [FlowGraph.arrived_concat_iff] at hx
  cases hd : (g.statement m).intDefinition? with
  | none =>
    rw [effect_of_not_intDefinition hd]
    rcases hx with hx | ⟨y, e, hd', _⟩
    · exact hf x hx
    · cases hd.symm.trans hd'
  | some d =>
    rw [get_effect hd]
    split
    · refine Expression.evaluate_ne_undefined fun u hu => hf u (huses u ?_ (hlookups d hd u hu))
      rw [(Statement.intDefinition?_eq_some_iff.mp hd).1]
      exact List.mem_append_left _ (d.2.lookups_subset_uses hu)
    · rename_i hne
      rcases hx with hx | ⟨y, e, hd', hyx⟩
      · exact hf x hx
      · cases hd.symm.trans hd'
        exact absurd hyx hne

section Solutions
variable {before after : ℕ → Valuation}
variable (hfacts : IsLeastSolution g.nodes g.entry g.preds (fun n => effect (g.statement n)) .empty
  (boundary g) before after)
include hfacts

/-- The facts after the last node of a path cover all that has arrived on it. -/
theorem covers_after (hpath : g.Path g.entry ms m) (huses : g.UseDefined (ms ++ [m]))
    (hlookups : g.LooksUpFollowed (ms ++ [m])) : Covers g (ms ++ [m]) (after m) := by
  induction ms using List.reverseRecOn generalizing m with
  | nil =>
    cases hpath
    rw [hfacts.output_origin]
    exact covers_boundary g
  | append_singleton ms k ih =>
    obtain ⟨hpath, hsucc⟩ := FlowGraph.path_concat_iff.mp hpath
    obtain ⟨huses, hm⟩ := huses.of_concat
    obtain ⟨hlookups, hm'⟩ := List.forall_mem_append.mp hlookups
    have hbefore : Covers g (ms ++ [k]) (before m) :=
      (ih hpath huses hlookups).mono (hfacts.output_le_input_of_succ hsucc)
    have hafter := hfacts.output_beq m (g.mem_nodes_of_succ hsucc) (g.succ_range hsucc).1.ne'
    rw [Valuation.beq_iff_le_le] at hafter
    exact (covers_effect hbefore hm (hm' m List.mem_cons_self)).mono hafter.2

end Solutions
end Paths

/-- What is a parameter or has been defined on a path is not undefined at its end. -/
theorem arrived_not_undefined {settings : Settings} {g : FlowGraph} {r : Solution Valuation}
    (hr : (analysis settings).solve g = .ok r) {ms : List ℕ} {n : ℕ}
    (hpath : g.Path g.entry ms n) (hn : n ≠ g.entry) (huses : g.UseDefined ms)
    (hlookups : g.LooksUpFollowed ms) {x : Variable} (hx : g.arrived ms x = true) :
    ∃ f, r.inFact? n = some f ∧ f.get x ≠ .undefined := by
  have hfacts := (lawful settings).isLeastSolution_of_forward rfl hr
  cases ms using List.reverseRecOn with
  | nil =>
    cases hpath
    exact absurd rfl hn
  | append_singleton ms k =>
    obtain ⟨hpath, hsucc⟩ := FlowGraph.path_concat_iff.mp hpath
    have hin := (Analysis.facts_of_solveWithin hr (g.mem_nodes_of_succ hsucc)).1
    have hafter := covers_after hfacts hpath huses hlookups
    exact ⟨_, hin, hafter.mono (hfacts.output_le_input_of_succ hsucc) x hx⟩

/-- The head of the loop in the second round, where `x` arrives with the value of a sum. -/
theorem counter_not_undefined_at_loop_head :
    Sample.loop.graph.UseDefined [0, 1, 2, 3, 4, 5] ∧
    Sample.loop.graph.LooksUpFollowed [0, 1, 2, 3, 4, 5] ∧
    ∃ r, analysis.solve Sample.loop.graph = .ok r ∧
      ∃ f, r.inFact? 3 = some f ∧ f.get (Sample.int 1 "x") ≠ .undefined := by
  have huses : Sample.loop.graph.UseDefined [0, 1, 2, 3, 4, 5] := by decide
  have hlookups : Sample.loop.graph.LooksUpFollowed [0, 1, 2, 3, 4, 5] := by decide
  have hpath : Sample.loop.graph.Path Sample.loop.graph.entry [0, 1, 2, 3, 4, 5] 3 :=
    .cons (by decide) (.cons (by decide) (.cons (by decide) (.cons (by decide)
      (.cons (by decide) (.cons (by decide) (.nil 3))))))
  obtain ⟨r, hr⟩ : ∃ r, analysis.solve Sample.loop.graph = .ok r := ⟨_, rfl⟩
  exact ⟨huses, hlookups, r, hr,
    arrived_not_undefined hr hpath (by decide) huses hlookups (by decide)⟩

/-- A definition that looks up nothing but untracked variables leaves its variable undefined. -/
theorem undefined_of_untracked_lookups {settings : Settings} {g : FlowGraph}
    {r : Solution Valuation} (hr : (analysis settings).solve g = .ok r) {n : ℕ} {x : Variable}
    {e : Expression} (hd : (g.statement n).intDefinition? = some (x, e)) (hne : e.lookups ≠ [])
    (huntracked : ∀ y ∈ e.lookups, y.id ∉ trackedIds g) :
    ∃ f, r.outFact? n = some f ∧ f.get x = .undefined := by
  have hfacts := (lawful settings).isLeastSolution_of_forward rfl hr
  have hstatement : g.statement n ≠ .nop := Statement.ne_nop_of_intDefinition hd
  have hnode := g.mem_nodes_of_lt_exit (g.lt_exit_of_statement hstatement)
  have hentry : n ≠ g.entry := by
    rintro rfl
    exact hstatement rfl
  have hwithin : (r.before.get n).Within (trackedIds g) := by
    obtain ⟨_, rfl⟩ := Analysis.solveWithin_eq_ok hr
    rw [Analysis.attempt_eq_run]
    exact (within_facts settings _ n).1
  refine ⟨_, (Analysis.facts_of_solveWithin hr hnode).2, ?_⟩
  rw [(Valuation.beq_iff_get _ _).mp (hfacts.output_beq n hnode hentry) x, get_effect hd,
    if_pos BEq.rfl]
  refine Expression.evaluate_eq_undefined hne fun y hy => ?_
  by_contra hdefined
  exact huntracked y hy (hwithin y hdefined)

/-- `b = l < m` over parameters that are not followed. -/
def longLess : Procedure :=
  let (l, m, b) : Variable × Variable × Variable :=
    (⟨0, "l", .primitive .long⟩, ⟨1, "m", .primitive .long⟩, ⟨2, "b", .primitive .boolean⟩)
  (Procedure.named "less").edits [.declare "l" l.type true, .declare "m" m.type true,
    .declare "b" b.type false, Sample.assign b (.binary ⟨l, m, .comparison .lt⟩),
    .push (.ret (some b))]

def longLessGraph : FlowGraph := ⟨longLess, longLess.arcs.toOption.getD [], rfl⟩

/-- The comparison has arrived at the exit, yet `b` is undefined there. -/
theorem long_comparison_undefined_at_exit :
    let g := longLessGraph
    let b : Variable := ⟨2, "b", .primitive .boolean⟩
    (∀ s ∈ longLess.statements, ∀ x ∈ s.assigned?.toList ++ s.uses,
      longLess.variableOf x.id = .ok x) ∧
    g.Path g.entry [0, 1, 2] g.exit ∧ g.UseDefined [0, 1, 2] ∧ g.arrived [0, 1, 2] b = true ∧
    ∃ r f, analysis.solve g = .ok r ∧ r.inFact? g.exit = some f ∧ f.get b = .undefined := by
  intro g b
  have hdeclared : ∀ s ∈ longLess.statements, ∀ x ∈ s.assigned?.toList ++ s.uses,
      longLess.variableOf x.id = .ok x := by
    refine List.forall_mem_cons.mpr ⟨?_, List.forall_mem_singleton.mpr ?_⟩
    · exact List.forall_mem_cons.mpr ⟨rfl, List.forall_mem_cons.mpr ⟨rfl,
        List.forall_mem_singleton.mpr rfl⟩⟩
    · exact List.forall_mem_singleton.mpr rfl
  have hpath : g.Path g.entry [0, 1, 2] g.exit :=
    .cons (by decide) (.cons (by decide) (.cons (by decide) (.nil 3)))
  obtain ⟨r, hr, hb⟩ : ∃ r, analysis.solve longLessGraph = .ok r ∧
    (r.before.get 3).get ⟨2, "b", .primitive .boolean⟩ = .undefined := ⟨_, rfl, rfl⟩
  have hin := (Analysis.facts_of_solveWithin hr (n := 3) (by decide)).1
  exact ⟨hdeclared, hpath, by decide, by decide, r, _, hr, hin, hb⟩

end ConstantPropagation
end ConstFlow
