import ConstFlow.Dataflow.Counting
import ConstFlow.Proofs.Dataflow.Solving
import Mathlib.Order.Nat

/-! # Fuel

A run that has come to its end stays as it is, whatever fuel is left, and one that has not has
made a visit for each unit of its fuel. So the visits of a finished run are exactly the fuel
that it needs, and fuel decides about nothing but whether there is a solution.
-/
namespace ConstFlow

namespace Problem
variable {F : Type} {p : Problem F}

theorem run_eq_of_done {k fuel : ℕ} (hdone : (p.run k p.start).queue = []) (hle : k ≤ fuel) :
    p.run fuel p.start = p.run k p.start := by
  induction fuel, hle using Nat.le_induction with
  | base => rfl
  | succ fuel _ ih => rw [run_succ, ih, p.turn_of_done hdone]

theorem length_visits_le (fuel : ℕ) : (p.run fuel p.start).visits.length ≤ fuel := by
  induction fuel with
  | zero => exact Nat.le_refl 0
  | succ fuel ih =>
    rw [run_succ]
    obtain ⟨_, hturn⟩ | ⟨n, rest, _, hturn⟩ := p.turn_cases (p.run fuel p.start)
    · rw [hturn]
      exact Nat.le_succ_of_le ih
    · rw [hturn, visits_advance, List.length_cons]
      exact Nat.succ_le_succ ih

/-- A finished run needs no more fuel than it makes visits. -/
theorem run_length_visits {fuel : ℕ} (hdone : (p.run fuel p.start).queue = []) :
    p.run (p.run fuel p.start).visits.length p.start = p.run fuel p.start := by
  induction fuel with
  | zero => rfl
  | succ fuel ih =>
    obtain ⟨hbefore, hturn⟩ | ⟨n, rest, hq, hturn⟩ := p.turn_cases (p.run fuel p.start)
    · rw [run_succ, hturn]
      exact ih hbefore
    · have hspent : (p.run fuel p.start).visits.length = fuel :=
        length_visits_of_queue_ne_nil (by simp [hq])
      have hlength : (p.run (fuel + 1) p.start).visits.length = fuel + 1 := by
        rw [run_succ, hturn, visits_advance, List.length_cons, hspent]
      rw [hlength]

/-- With less fuel the run would have stopped short. -/
theorem queue_ne_nil_of_lt {k fuel : ℕ} (hlt : k < (p.run fuel p.start).visits.length) :
    (p.run k p.start).queue ≠ [] := by
  intro hdone
  have hle : k ≤ fuel := hlt.le.trans (length_visits_le fuel)
  have hsame := run_eq_of_done hdone hle
  have hfew := length_visits_le (p := p) k
  rw [hsame] at hlt
  omega

end Problem

namespace Analysis
variable {F : Type} {a : Analysis F} {g : FlowGraph} {limit : ℕ}

theorem iterations_of_solveWithin {r : Solution F} (hr : a.solveWithin g limit = .ok r) :
    r.iterations = (a.attempt g limit).visits.length := by
  obtain ⟨_, rfl⟩ := solveWithin_eq_ok hr
  cases hd : a.direction <;> simp [conclude, hd]

theorem solveWithin_eq_error_iff {e : SolveError} : a.solveWithin g limit = .error e ↔
    e = .fuelExhausted limit ∧ (a.attempt g limit).queue ≠ [] := by
  rw [solveWithin_eq_ite]
  split
  · rename_i hdone
    simp [hdone]
  · rename_i hleft
    simp [hleft, eq_comm]

/-- Every limit that allows for the visits of a solution finds that same solution, and every
lower one finds none. -/
theorem solveWithin_of_solveWithin {r : Solution F} (hr : a.solveWithin g limit = .ok r) :
    r.iterations ≤ limit ∧
    (∀ limit', r.iterations ≤ limit' → a.solveWithin g limit' = .ok r) ∧
    (∀ limit' < r.iterations, a.solveWithin g limit' = .error (.fuelExhausted limit')) ∧
    ∀ r', a.solve g = .ok r' → r' = r := by
  have hiterations := iterations_of_solveWithin hr
  obtain ⟨hdone, hconclude⟩ := solveWithin_eq_ok hr
  have hvisits : r.iterations ≤ limit := by
    rw [hiterations, attempt_eq_run]
    exact Problem.length_visits_le limit
  have henough : ∀ limit', r.iterations ≤ limit' → a.solveWithin g limit' = .ok r := by
    intro limit' hle
    have hsame : a.attempt g limit' = a.attempt g limit := by
      rw [attempt_eq_run] at hiterations hdone ⊢
      have hneeded := Problem.run_length_visits hdone
      rw [← hiterations] at hneeded
      rw [attempt_eq_run, ← hneeded]
      exact Problem.run_eq_of_done (hneeded ▸ hdone) hle
    rw [solveWithin_of_done (hsame ▸ hdone), hsame, hconclude]
  have hshort : ∀ limit' < r.iterations,
      a.solveWithin g limit' = .error (.fuelExhausted limit') := by
    intro limit' hlt
    rw [hiterations, attempt_eq_run] at hlt
    refine solveWithin_eq_error_iff.mpr ⟨rfl, ?_⟩
    rw [attempt_eq_run]
    exact Problem.queue_ne_nil_of_lt hlt
  refine ⟨hvisits, henough, hshort, fun r' hr' => ?_⟩
  rcases Nat.lt_or_ge a.settings.maxIterations r.iterations with hlt | hle
  · cases hr'.symm.trans (hshort _ hlt)
  · exact Except.ok.inj (hr'.symm.trans (henough _ hle))

/-- A loop that is counted up to three needs ten visits, however many it may make. -/
theorem counted_loop_needs_ten_visits :
    let count := Counting.analysis ⟨"count", 40⟩ .backward (some 3)
    ∃ r, count.solve Sample.loop.graph = .ok r ∧ r.iterations = 10 ∧
      count.solveWithin Sample.loop.graph 10 = .ok r ∧
      count.solveWithin Sample.loop.graph 9 = .error (.fuelExhausted 9) := by
  intro count
  obtain ⟨r, hr, hten⟩ : ∃ r, (Counting.analysis ⟨"count", 40⟩ .backward (some 3)).solve
      Sample.loop.graph = .ok r ∧ r.iterations = 10 := ⟨_, rfl, rfl⟩
  obtain ⟨_, henough, hshort, _⟩ := solveWithin_of_solveWithin hr
  have hlt : 9 < r.iterations := by
    rw [hten]
    decide
  exact ⟨r, hr, hten, henough 10 hten.le, hshort 9 hlt⟩

end Analysis
end ConstFlow
