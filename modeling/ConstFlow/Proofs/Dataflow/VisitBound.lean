import ConstFlow.Proofs.Dataflow.Ascent
import Mathlib.Algebra.BigOperators.Ring.List
import Mathlib.Algebra.Order.BigOperators.Group.List
import Mathlib.Algebra.Order.Ring.Nat

/-! # The number of visits

Where facts have bounded height, a visit that changes an output uses up height and pays for
the targets that it puts in the queue. Visits made, nodes that wait and height that is left
thus never grow together, which bounds the visits of any run.
-/
namespace ConstFlow

/-- Lowering one term by `d` lowers the sum by `d` at least. -/
theorem sum_map_add_le {l : List ℕ} {f g : ℕ → ℕ} {k d : ℕ} (hk : k ∈ l)
    (hle : ∀ n, f n ≤ g n) (hd : f k + d ≤ g k) : (l.map f).sum + d ≤ (l.map g).sum := by
  induction l with
  | nil => simp at hk
  | cons a rest ih =>
    have hrest : (rest.map f).sum ≤ (rest.map g).sum := List.sum_le_sum fun n _ => hle n
    simp only [List.map_cons, List.sum_cons]
    rcases List.mem_cons.mp hk with rfl | hk
    · omega
    · have ha := hle a
      have hsum := ih hk
      omega

/-- A measure of facts that is bounded and grows with every strict ascent, as long as facts
keep to some range. -/
structure BoundedHeight {F : Type} [Preorder F] (range : F → Prop) (height : F → ℕ)
    (top : ℕ) : Prop where
  le_top : ∀ f, range f → height f ≤ top
  mono : Monotone height
  le_of_le : ∀ f g, range f → range g → f ≤ g → height g ≤ height f → g ≤ f

namespace Problem
variable {F : Type} [BEq F] [Preorder F] {p : Problem F} {effect : ℕ → F → F}
variable {range : F → Prop} {height : F → ℕ} {top : ℕ}

/-- The targets that outputs may still put in the queue. -/
def slack (p : Problem F) (height : F → ℕ) (top : ℕ) (s : Progress F) : ℕ :=
  (p.seeds.map fun n => (top - height (s.outputs.get n)) * (p.targets n).length).sum

/-- The visits that a run may make. -/
def visitBound (p : Problem F) (top : ℕ) : ℕ :=
  p.seeds.length + top * (p.seeds.map fun n => (p.targets n).length).sum

omit [BEq F] [Preorder F] in
theorem slack_le (height : F → ℕ) (top : ℕ) (s : Progress F) :
    p.slack height top s ≤ top * (p.seeds.map fun n => (p.targets n).length).sum := by
  rw [slack, ← List.sum_map_mul_left]
  apply List.sum_le_sum
  intro n _
  exact Nat.mul_le_mul_right _ (Nat.sub_le _ _)

omit [BEq F] [Preorder F] in
theorem length_queue_advance_le (s : Progress F) (n : ℕ) (rest : Worklist) :
    (p.advance s n rest).queue.length ≤
      rest.queue.length + if (p.visit s n).changed then (p.targets n).length else 0 := by
  rw [queue_advance]
  split
  · exact length_enqueue_le _ _
  · exact Nat.le_refl _

variable (hl : p.Lawful effect) (hh : BoundedHeight range height top)
include hl hh

/-- A visit that changes an output takes from the slack what it adds to the queue. -/
theorem slack_advance_le {s : Progress F} (hs : p.Climbing effect s) {n : ℕ} (hn : n ∈ p.seeds)
    (hrange : range (s.outputs.get n)) (hrange' : range (p.visit s n).output) (rest : Worklist) :
    p.slack height top (p.advance s n rest) +
      (if (p.visit s n).changed then (p.targets n).length else 0) ≤ p.slack height top s := by
  apply sum_map_add_le hn
  · intro m
    have hup := hh.mono (hs.outputs_le_advance hl hn rest m)
    exact Nat.mul_le_mul_right _ (by omega)
  · have hup := hs.output_le_visit hl hn
    have htop := hh.le_top _ hrange'
    rw [outputs_advance, if_pos rfl]
    split
    · rename_i hc
      have hlt : height (s.outputs.get n) < height (p.visit s n).output := by
        by_contra hnot
        have hdown := hh.le_of_le _ _ hrange hrange' hup (Nat.le_of_not_lt hnot)
        have hbeq := hl.beq_of_le_of_le hdown hup
        have hne := (hl.changed_iff n _ _).mp hc
        simp [visit_output, hne] at hbeq
      calc (top - height (p.visit s n).output) * (p.targets n).length + (p.targets n).length
          = (top - height (p.visit s n).output + 1) * (p.targets n).length := by
            rw [Nat.add_mul, Nat.one_mul]
        _ ≤ (top - height (s.outputs.get n)) * (p.targets n).length :=
            Nat.mul_le_mul_right _ (by omega)
    · have := hh.mono hup
      exact Nat.mul_le_mul_right _ (by omega)

variable (hp : p.WellFormed) (hrange : ∀ fuel n, range ((p.run fuel p.start).outputs.get n))
include hp hrange

theorem visits_add_queue_add_slack_le (fuel : ℕ) :
    (p.run fuel p.start).visits.length + (p.run fuel p.start).queue.length +
      p.slack height top (p.run fuel p.start) ≤ p.visitBound top := by
  induction fuel with
  | zero =>
    have hqueue := length_enqueue_le [] p.seeds
    have hslack := p.slack_le height top p.start
    rw [← queue_start] at hqueue
    change 0 + p.start.queue.length + p.slack height top p.start ≤ _
    simp only [visitBound, List.length_nil] at hqueue ⊢
    omega
  | succ fuel ih =>
    have hs : p.Climbing effect (p.run fuel p.start) := Climbing.run hl hp fuel
    have hnext := hrange (fuel + 1)
    obtain h | ⟨n, rest, hn, hq, h⟩ := run_succ_cases hp fuel
    · rw [h]
      exact ih
    · rw [h] at hnext ⊢
      have hout := hnext n
      rw [outputs_advance, if_pos rfl] at hout
      have hslack := slack_advance_le hl hh hs hn (hrange fuel n) hout rest
      have hqueue := p.length_queue_advance_le (p.run fuel p.start) n rest
      rw [hq, List.length_cons] at ih
      rw [visits_advance, List.length_cons]
      -- the visit replaces the node it took, and the slack pays for all that it enqueued
      omega

/-- With fuel for all the visits that it may make, a run comes to its end. -/
theorem run_done {fuel : ℕ} (hfuel : p.visitBound top ≤ fuel) :
    (p.run fuel p.start).queue = [] ∧ (p.run fuel p.start).visits.length ≤ p.visitBound top := by
  have h := visits_add_queue_add_slack_le hl hh hp hrange fuel
  refine ⟨?_, by omega⟩
  by_contra hne
  have hvisits := length_visits_of_queue_ne_nil hne
  have hpos := List.length_pos_iff.mpr hne
  omega

end Problem
end ConstFlow
