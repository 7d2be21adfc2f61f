import ConstFlow.Proofs.Constants.Monotonicity
import ConstFlow.Proofs.Dataflow.Solving
import ConstFlow.Proofs.Flow.Paths

/-! # Where entries come from

A valuation keeps the variable that was stored first under an id, and its operations do not ask
whether that variable is followed. Still nothing but followed variables is ever stored in the
course of a run, and each of them has come along a path from the entry, as a parameter, or from
a definition. Paths may start in code that control never comes to.
-/
namespace ConstFlow

namespace Valuation
variable {P Q : Variable → Prop} {f t : Valuation}

/-- All variables that values are stored under have the property `P`. -/
def KeysHave (P : Variable → Prop) (f : Valuation) : Prop := ∀ e ∈ f.entries, P e.1

theorem KeysHave.imp (h : f.KeysHave P) (hPQ : ∀ x, P x → Q x) : f.KeysHave Q :=
  fun e he => hPQ e.1 (h e he)

theorem keysHave_empty (P : Variable → Prop) : empty.KeysHave P := fun _ he => nomatch he

/-- An update stores its variable, if it stores anything, or keeps the one that is there. -/
theorem KeysHave.update (hf : f.KeysHave P) {x : Variable} (hx : P x) (v : Value) :
    (f.update x v).1.KeysHave P := by
  unfold Valuation.update
  split
  · exact fun e he => hf e (List.mem_filter.mp he).1
  · intro e he
    rcases OrderedMap.key_mem_update he with hk | ⟨d, hd, hk⟩
    · rw [hk]
      exact hx
    · rw [← hk]
      exact hf d hd

theorem keysHave_ofList {l : List (Variable × Value)} (hl : ∀ e ∈ l, P e.1) :
    (ofList l).KeysHave P :=
  List.foldlRecOn l _ (keysHave_empty P) fun _ hf e he => hf.update (hl e he) e.2

theorem KeysHave.mergeInto (hf : f.KeysHave P) (ht : t.KeysHave P) : (f.mergeInto t).KeysHave P :=
  List.foldlRecOn f.entries _ ht fun _ ht e he => ht.update (hf e he) _

end Valuation

namespace FlowGraph
variable {g : FlowGraph} {m n : ℕ} {x : Variable}

/-- A followed variable with the id of `x` is a parameter, `m` being the entry, or the target of
a definition at `m`. -/
def Introduces (g : FlowGraph) (m : ℕ) (x : Variable) : Prop :=
  ∃ y : Variable, y.holdsInt = true ∧ y.id = x.id ∧
    (m = g.entry ∧ y ∈ g.procedure.params ∨ ∃ e, g.statement m = .define ⟨.var y, e⟩)

/-- A path to `n`, possibly without arcs, starts where `x` is introduced. -/
def OriginAfter (g : FlowGraph) (n : ℕ) (x : Variable) : Prop :=
  ∃ m ms, g.Introduces m x ∧ g.Path m ms n

/-- A path to `n` of one arc or more starts where `x` is introduced. -/
def OriginBefore (g : FlowGraph) (n : ℕ) (x : Variable) : Prop :=
  ∃ m, g.Introduces m x ∧ g.Reaches m n

theorem OriginBefore.after (h : g.OriginBefore n x) : g.OriginAfter n x := by
  obtain ⟨m, hm, ms, _, hpath⟩ := h
  exact ⟨m, ms, hm, hpath⟩

theorem OriginAfter.before (h : g.OriginAfter m x) (hn : n ∈ g.succs m) : g.OriginBefore n x := by
  obtain ⟨k, ms, hk, hpath⟩ := h
  exact ⟨k, hk, hpath.reaches hn⟩

theorem Introduces.originAfter (h : g.Introduces n x) : g.OriginAfter n x := ⟨n, [], h, .nil n⟩

/-- Properties of variables before and after the nodes that hold where a followed variable is
introduced, and that statements and arcs pass on. -/
structure Carries (g : FlowGraph) (before after : ℕ → Variable → Prop) : Prop where
  param : ∀ x ∈ g.procedure.params, x.holdsInt = true → after g.entry x
  define : ∀ n x e, g.statement n = .define ⟨.var x, e⟩ → x.holdsInt = true → after n x
  keep : ∀ n x, before n x → after n x
  arc : ∀ m n x, n ∈ g.succs m → after m x → before n x

theorem carries_origins (g : FlowGraph) :
    g.Carries (fun n x => x.holdsInt = true ∧ g.OriginBefore n x)
      (fun n x => x.holdsInt = true ∧ g.OriginAfter n x) where
  param x hx hint := by
    have hintroduced : g.Introduces g.entry x := ⟨x, hint, rfl, Or.inl ⟨rfl, hx⟩⟩
    exact ⟨hint, hintroduced.originAfter⟩
  define n x e hs hint := by
    have hintroduced : g.Introduces n x := ⟨x, hint, rfl, Or.inr ⟨e, hs⟩⟩
    exact ⟨hint, hintroduced.originAfter⟩
  keep _ _ h := ⟨h.1, h.2.after⟩
  arc _ _ _ hn h := ⟨h.1, h.2.before hn⟩

end FlowGraph

namespace ConstantPropagation

section Facts
variable {g : FlowGraph} {before after : ℕ → Variable → Prop} (hg : g.Carries before after)
include hg

theorem keysHave_boundary : (boundary g).KeysHave (after g.entry) := by
  apply Valuation.keysHave_ofList
  intro e he
  obtain ⟨x, hx, rfl⟩ := List.mem_map.mp he
  obtain ⟨hparam, hint⟩ := List.mem_filter.mp hx
  exact hg.param x hparam hint

theorem keysHave_effect {n : ℕ} {f : Valuation} (hf : f.KeysHave (before n)) :
    (effect (g.statement n) f).KeysHave (after n) := by
  have hkept : f.KeysHave (after n) := hf.imp fun x hx => hg.keep n x hx
  cases hd : (g.statement n).intDefinition? with
  | none =>
    rw [effect_of_not_intDefinition hd]
    exact hkept
  | some d =>
    obtain ⟨hs, hint⟩ := Statement.intDefinition?_eq_some_iff.mp hd
    rw [effect_of_intDefinition hd]
    exact hkept.update (hg.define n d.1 d.2 hs hint) _

/-- The keys of a solution have every property that the graph carries. -/
theorem keysHave_facts {settings : Settings} {limit : ℕ} {r : Solution Valuation}
    (hr : (analysis settings).solveWithin g limit = .ok r) (n : ℕ) :
    (r.before.get n).KeysHave (before n) ∧ (r.after.get n).KeysHave (after n) := by
  refine Analysis.forward_facts rfl hr (fun n f => f.KeysHave (before n))
    (fun n f => f.KeysHave (after n)) (fun n => Valuation.keysHave_empty _)
    (fun n => Valuation.keysHave_empty _) (keysHave_boundary hg) ?_ ?_ n
  · intro n m hm f t hf ht
    have hsucc := g.mem_preds_iff_mem_succs.mp hm
    have harrived : f.KeysHave (before n) := hf.imp fun x hx => hg.arc m n x hsucc hx
    exact harrived.mergeInto ht
  · intro n _ _ f o hf ho
    -- the old output stays for an equal one, which may have other keys
    change (o.copyFrom (effect (g.statement n) f)).1.KeysHave (after n)
    unfold Valuation.copyFrom
    split
    · exact ho
    · exact keysHave_effect hg hf

end Facts

/-- The entries of a solution are defined values of followed variables. A path leads to them
from the entry, for a parameter of the same id, or from a definition of the same id. -/
theorem entries_have_origins {settings : Settings} {g : FlowGraph} {r : Solution Valuation}
    (hr : (analysis settings).solve g = .ok r) {n : ℕ} (hn : n ∈ g.nodes) :
    ∃ before after, r.inFact? n = some before ∧ r.outFact? n = some after ∧
      (∀ e ∈ before.entries,
        e.1.holdsInt = true ∧ e.2 ≠ .undefined ∧ g.OriginBefore n e.1) ∧
      ∀ e ∈ after.entries,
        e.1.holdsInt = true ∧ e.2 ≠ .undefined ∧ g.OriginAfter n e.1 := by
  obtain ⟨hbefore, hafter⟩ := keysHave_facts g.carries_origins hr n
  obtain ⟨hin, hout⟩ := Analysis.facts_of_solveWithin hr hn
  refine ⟨_, _, hin, hout, ?_, ?_⟩
  · intro e he
    obtain ⟨hint, horigin⟩ := hbefore e he
    exact ⟨hint, (r.before.get n).defined e he, horigin⟩
  · intro e he
    obtain ⟨hint, horigin⟩ := hafter e he
    exact ⟨hint, (r.after.get n).defined e he, horigin⟩

/-- Jumps over `x = 1` to the return of `x`. -/
def skipped : Procedure :=
  (Procedure.named "skipped").edits [Sample.declareInt "x", .newLabel, .push (.jump ⟨0⟩),
    Sample.assign (Sample.int 0 "x") (.int 1), .bind ⟨0⟩, .push (.ret (some (Sample.int 0 "x")))]

def skippedGraph : FlowGraph := ⟨skipped, skipped.arcs.toOption.getD [], rfl⟩

/-- The value of `x` at the return comes from a definition that nothing leads to. -/
theorem skipped_definition_is_origin :
    let x := Sample.int 0 "x"
    skippedGraph.preds 2 = [] ∧
    ∃ r f, analysis.solve skippedGraph = .ok r ∧ r.inFact? 3 = some f ∧
      (x, Value.constant 1) ∈ f.entries ∧ x.holdsInt = true ∧
      skippedGraph.OriginBefore 3 x := by
  intro x
  obtain ⟨r, hr, hentry⟩ : ∃ r, analysis.solve skippedGraph = .ok r ∧
      (Sample.int 0 "x", Value.constant 1) ∈ (r.before.get 3).entries :=
    ⟨_, rfl, List.mem_singleton.mpr rfl⟩
  have hnode : 3 ∈ skippedGraph.nodes := by decide
  have hin := (Analysis.facts_of_solveWithin hr hnode).1
  obtain ⟨f, _, hf, _, horigins, _⟩ := entries_have_origins hr hnode
  cases hin.symm.trans hf
  obtain ⟨hint, _, horigin⟩ := horigins _ hentry
  exact ⟨by decide, r, _, hr, hin, hentry, hint, horigin⟩

end ConstantPropagation
end ConstFlow
