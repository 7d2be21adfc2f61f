import ConstFlow.Proofs.Dataflow.LeastSolution
import Mathlib.Data.List.Chain

/-! # Ascent

All facts that a place holds in turn during a run ascend, those between the arrivals of two
sources included.
-/
namespace ConstFlow.Problem
variable {F : Type} [BEq F] [Preorder F] {p : Problem F} {effect : ℕ → F → F}

section Trails
variable (p)

/-- What the input of `n` holds during the next turn, the sources arriving one by one. -/
def turnInputs (s : Progress F) (n : ℕ) : List F :=
  if s.queue.head? = some n then
    (p.sources n).scanl (fun t m => p.merge (s.outputs.get m) t) (s.inputs.get n)
  else [s.inputs.get n]

/-- What the input of `n` holds in turn during a run. -/
def inputTrail (fuel n : ℕ) : List F :=
  (List.range fuel).flatMap (fun k => p.turnInputs (p.run k p.start) n) ++
    [(p.run fuel p.start).inputs.get n]

/-- What the output of `n` holds in turn during a run. -/
def outputTrail (fuel n : ℕ) : List F :=
  (List.range (fuel + 1)).map fun k => (p.run k p.start).outputs.get n

end Trails

omit [BEq F] [Preorder F] in
theorem head?_turnInputs (s : Progress F) (n : ℕ) :
    (p.turnInputs s n).head? = some (s.inputs.get n) := by
  unfold turnInputs
  split
  · exact List.head?_scanl
  · rfl

omit [BEq F] [Preorder F] in
theorem getLast?_turnInputs (s : Progress F) (n : ℕ) :
    (p.turnInputs s n).getLast? = some ((p.turn s).inputs.get n) := by
  unfold turnInputs
  obtain ⟨hq, hturn⟩ | ⟨m, rest, hq, hturn⟩ := p.turn_cases s
  · simp [hq, hturn]
  · rw [hq, hturn, inputs_advance]
    by_cases h : m = n
    · subst h
      simp only [List.head?_cons, ↓reduceIte]
      exact List.getLast?_scanl
    · simp [h]

section Ascent
variable (hl : p.Lawful effect)
include hl

theorem isChain_turnInputs (s : Progress F) (n : ℕ) : (p.turnInputs s n).IsChain (· ≤ ·) := by
  unfold turnInputs
  split
  · generalize s.inputs.get n = target
    induction p.sources n generalizing target with
    | nil => simp
    | cons m rest ih =>
      rw [List.scanl_cons, List.isChain_cons, List.head?_scanl]
      refine ⟨?_, ih _⟩
      rintro f ⟨⟩
      exact hl.target_le_merge _ _
  · simp

theorem isChain_inputTrail (fuel n : ℕ) : (p.inputTrail fuel n).IsChain (· ≤ ·) := by
  unfold inputTrail
  induction fuel with
  | zero => simp
  | succ fuel ih =>
    obtain ⟨hbody, _, hlast⟩ := List.isChain_append.mp ih
    rw [List.range_succ, List.flatMap_append, List.flatMap_singleton, run_succ]
    have hturn := isChain_turnInputs hl (p.run fuel p.start) n
    refine (hbody.append hturn ?_).append (List.isChain_singleton _) ?_
    · rw [head?_turnInputs]
      exact hlast
    · rw [List.getLast?_append, getLast?_turnInputs]
      rintro f ⟨⟩ g ⟨⟩
      exact le_rfl

variable (hp : p.WellFormed)
include hp

theorem monotone_outputs (n : ℕ) :
    Monotone fun fuel => (p.run fuel p.start).outputs.get n := by
  apply monotone_nat_of_le_succ
  intro fuel
  have hs : p.Climbing effect (p.run fuel p.start) := Climbing.run hl hp fuel
  obtain h | ⟨m, rest, hm, _, h⟩ := run_succ_cases hp fuel
  · rw [h]
  · rw [h]
    exact hs.outputs_le_advance hl hm rest n

theorem isChain_outputTrail (fuel n : ℕ) : (p.outputTrail fuel n).IsChain (· ≤ ·) := by
  apply List.Pairwise.isChain
  refine List.pairwise_map.mpr (List.pairwise_lt_range.imp ?_)
  intro j k hjk
  exact monotone_outputs hl hp n hjk.le

end Ascent

end ConstFlow.Problem
