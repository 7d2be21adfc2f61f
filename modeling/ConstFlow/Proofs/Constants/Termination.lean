import ConstFlow.Proofs.Constants.Monotonicity
import ConstFlow.Proofs.Dataflow.VisitBound
import Mathlib.Algebra.Order.BigOperators.Group.Finset

/-! # Termination of constant propagation

Only variables that are followed and that a parameter or a definition introduces can ever
have a value, and each can rise twice at each node. This bounds the height of all facts and
with it the visits that any run makes.
-/
namespace ConstFlow

namespace Value

/-- How often a sequence of values changes. -/
def changes : List Value → ℕ
  | a :: b :: rest => (if a = b then 0 else 1) + changes (b :: rest)
  | _ => 0

theorem rank_add_changes_le {a : Value} {rest : List Value} (h : (a :: rest).IsChain (· ≤ ·)) :
    a.rank + changes (a :: rest) ≤ 2 := by
  induction rest generalizing a with
  | nil => exact a.rank_le_two
  | cons b rest ih =>
    obtain ⟨hab, hrest⟩ := List.isChain_cons_cons.mp h
    have hb := ih hrest
    rw [changes]
    split
    · rename_i heq
      subst heq
      omega
    · rename_i hne
      have hlt := rank_lt_rank hab hne
      omega

/-- Values that only climb change twice at most. -/
theorem changes_le_two {values : List Value} (h : values.IsChain (· ≤ ·)) : changes values ≤ 2 := by
  cases values with
  | nil => exact Nat.zero_le _
  | cons a rest =>
    have hsum := rank_add_changes_le h
    omega

end Value

namespace Valuation
variable {ids : Finset ℕ} {f g : Valuation}

/-- The value that the variables numbered `i` have. -/
def valueOf (f : Valuation) (i : ℕ) : Value := f.get ⟨i, "", .null⟩

theorem valueOf_id (f : Valuation) (x : Variable) : f.valueOf x.id = f.get x :=
  f.get_congr (Variable.beq_iff.mpr rfl)

/-- Variables with other ids have no value. -/
def Within (ids : Finset ℕ) (f : Valuation) : Prop := ∀ x, f.get x ≠ .undefined → x.id ∈ ids

theorem Within.mergeInto (hf : f.Within ids) (hg : g.Within ids) : (f.mergeInto g).Within ids := by
  intro x hx
  rw [get_mergeInto] at hx
  by_cases h : f.get x = .undefined
  · rw [h, Value.join_undefined] at hx
    exact hg x hx
  · exact hf x h

theorem Within.update (hf : f.Within ids) {x : Variable} (hx : x.id ∈ ids) (v : Value) :
    (f.update x v).1.Within ids := by
  intro y hy
  rw [get_update] at hy
  by_cases h : x == y
  · rw [← Variable.beq_iff.mp h]
    exact hx
  · rw [if_neg h] at hy
    exact hf y hy

theorem Within.of_beq (hf : f.Within ids) (h : (g == f) = true) : g.Within ids := by
  intro x hx
  rw [(beq_iff_get g f).mp h x] at hx
  exact hf x hx

/-- How far the values have climbed in all. -/
def height (ids : Finset ℕ) (f : Valuation) : ℕ := ∑ i ∈ ids, (f.valueOf i).rank

theorem boundedHeight (ids : Finset ℕ) :
    BoundedHeight (Within ids) (height ids) (2 * ids.card) where
  le_top f _ := by
    have h := Finset.sum_le_card_nsmul ids (fun i => (f.valueOf i).rank) 2
      fun i _ => Value.rank_le_two _
    rw [nsmul_eq_mul, Nat.mul_comm] at h
    exact h
  mono f g h := Finset.sum_le_sum fun i _ => Value.rank_mono (h _)
  le_of_le f g _ hg hfg hheight x := by
    by_contra hnot
    have hne : f.get x ≠ g.get x := fun h => hnot h.ge
    have hdefined : g.get x ≠ .undefined := by
      intro h
      exact hnot (h ▸ Value.undefined_le _)
    -- no value falls, so one that rises raises the height
    have hlt : (f.valueOf x.id).rank < (g.valueOf x.id).rank := by
      rw [valueOf_id, valueOf_id]
      exact Value.rank_lt_rank (hfg x) hne
    have hsum : f.height ids < g.height ids :=
      Finset.sum_lt_sum (fun i _ => Value.rank_mono (hfg _)) ⟨x.id, hg x hdefined, hlt⟩
    omega

end Valuation

namespace ConstantPropagation
variable (settings : Settings) (g : FlowGraph)

/-- The ids of the variables that constant propagation may give a value: those of
parameters and of defined variables, as far as they are followed. -/
def trackedIds : Finset ℕ :=
  (((g.procedure.params ++ g.procedure.statements.filterMap Statement.assigned?).filter
    Variable.holdsInt).map Variable.id).toFinset

/-- The arcs out of all nodes but the entry, counted without repetition. -/
def successorCount : ℕ := ((g.nodes.filter (· != g.entry)).map fun n => (g.succs n).length).sum

variable {g}

theorem mem_trackedIds {i : ℕ} : i ∈ trackedIds g ↔ ∃ x : Variable, x.holdsInt = true ∧ x.id = i ∧
    (x ∈ g.procedure.params ∨ ∃ s ∈ g.procedure.statements, s.assigned? = some x) := by
  simp only [trackedIds, List.mem_toFinset, List.mem_map, List.mem_filter, List.mem_append,
    List.mem_filterMap]
  constructor
  · rintro ⟨x, ⟨hx, hint⟩, hid⟩
    exact ⟨x, hint, hid, hx⟩
  · rintro ⟨x, hint, hid, hx⟩
    exact ⟨x, ⟨hx, hint⟩, hid⟩

theorem within_boundary : (boundary g).Within (trackedIds g) := by
  intro x hx
  rw [get_boundary] at hx
  split at hx
  · rename_i hany
    obtain ⟨y, hy, hyx⟩ := List.any_eq_true.mp hany
    obtain ⟨hint, hid⟩ := Bool.and_eq_true_iff.mp hyx
    exact mem_trackedIds.mpr ⟨y, hint, Variable.beq_iff.mp hid, Or.inl hy⟩
  · exact absurd rfl hx

theorem within_effect {f : Valuation} (hf : f.Within (trackedIds g)) (n : ℕ) :
    (effect (g.statement n) f).Within (trackedIds g) := by
  cases hd : (g.statement n).intDefinition? with
  | none =>
    rw [effect_of_not_intDefinition hd]
    exact hf
  | some d =>
    rw [effect_of_intDefinition hd]
    apply hf.update
    obtain ⟨hs, hint⟩ := Statement.intDefinition?_eq_some_iff.mp hd
    refine mem_trackedIds.mpr ⟨d.1, hint, rfl, Or.inr ⟨g.statement n, ?_, by rw [hs]; rfl⟩⟩
    exact g.statement_mem (Statement.ne_nop_of_intDefinition hd)

/-- No run gives other variables a value. -/
theorem within_facts (fuel n : ℕ) :
    let s := ((analysis settings).problem g).run fuel ((analysis settings).problem g).start
    (s.inputs.get n).Within (trackedIds g) ∧ (s.outputs.get n).Within (trackedIds g) := by
  have hempty : Valuation.empty.Within (trackedIds g) := fun x hx => absurd rfl hx
  refine Problem.run_facts ((analysis settings).problem_wellFormed g)
    (I := fun _ f => f.Within (trackedIds g)) (O := fun _ f => f.Within (trackedIds g))
    (fun _ => hempty) (fun _ => hempty) within_boundary ?_ ?_ fuel n
  · intro _ _ _ _ f t hf ht
    exact hf.mergeInto ht
  · intro n _ f o hf _
    exact (within_effect hf n).of_beq ((lawful settings).transfer_beq (g.statement n) f o)

theorem within_run (fuel n : ℕ) :
    ((((analysis settings).problem g).run fuel ((analysis settings).problem g).start).outputs.get
      n).Within (trackedIds g) :=
  (within_facts settings fuel n).2

variable (g)

/-- The visits that a run over a graph may need. -/
theorem visitBound_problem : ((analysis settings).problem g).visitBound (2 * (trackedIds g).card) =
    g.size - 1 + 2 * (trackedIds g).card * successorCount g := by
  rw [Problem.visitBound, Analysis.length_seeds, Analysis.problem_of_forward rfl, successorCount]

/-- Values only climb at every place of a run, so each changes twice at most, and the run
ends within a bound that the size of the graph and the tracked variables give. -/
theorem ascends_and_terminates :
    (∀ fuel n x,
      let incoming := ((((analysis settings).problem g).inputTrail fuel n).map fun f => f.get x)
      let outgoing := ((((analysis settings).problem g).outputTrail fuel n).map fun f => f.get x)
      (incoming.IsChain (· ≤ ·) ∧ Value.changes incoming ≤ 2) ∧
      outgoing.IsChain (· ≤ ·) ∧ Value.changes outgoing ≤ 2) ∧
    ∀ limit, g.size - 1 + 2 * (trackedIds g).card * successorCount g ≤ limit →
      ∃ r, (analysis settings).solveWithin g limit = .ok r ∧
        r.iterations ≤ g.size - 1 + 2 * (trackedIds g).card * successorCount g := by
  have hl := (lawful settings).problem g
  have hp := (analysis settings).problem_wellFormed g
  constructor
  · intro fuel n x incoming outgoing
    have hin : incoming.IsChain (· ≤ ·) :=
      List.isChain_map_of_isChain _ (fun _ _ h => h x) (Problem.isChain_inputTrail hl fuel n)
    have hout : outgoing.IsChain (· ≤ ·) :=
      List.isChain_map_of_isChain _ (fun _ _ h => h x) (Problem.isChain_outputTrail hl hp fuel n)
    exact ⟨⟨hin, Value.changes_le_two hin⟩, hout, Value.changes_le_two hout⟩
  · intro limit hlimit
    rw [← visitBound_problem settings] at hlimit ⊢
    obtain ⟨hdone, hvisits⟩ := Problem.run_done hl (Valuation.boundedHeight (trackedIds g)) hp
      (within_run settings) hlimit
    rw [← Analysis.attempt_eq_run] at hdone hvisits
    exact ⟨_, Analysis.solveWithin_of_done hdone, hvisits⟩

/-- Three tracked variables, seven nodes to visit and seven arcs between them. -/
theorem loop_ends_within_bound :
    let g := Sample.loop.graph
    g.size - 1 + 2 * (trackedIds g).card * successorCount g = 49 ∧
      ∃ r, analysis.solveWithin g 49 = .ok r ∧ r.iterations ≤ 49 := by
  intro g
  have hbound : g.size - 1 + 2 * (trackedIds g).card * successorCount g = 49 := by decide
  obtain ⟨r, hr, hle⟩ := (ascends_and_terminates settings g).2 49 hbound.le
  exact ⟨hbound, r, hr, hle.trans hbound.le⟩

end ConstantPropagation
end ConstFlow
