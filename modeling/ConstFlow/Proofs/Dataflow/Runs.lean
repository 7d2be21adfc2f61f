import ConstFlow.Dataflow.Problem
import ConstFlow.Proofs.Dataflow.Queues
import Mathlib.Logic.Function.Iterate

/-! # Runs of the worklist

A run is the iteration of one turn. What a turn preserves holds after any number of
turns, and a fact that is built from lawful pieces keeps every property that merging and
transfer pass on. The loop that counts its iterations makes as many turns as its limit allows, and
fails exactly if nodes are left to visit then.
-/
namespace ConstFlow
variable {F : Type}

/-- The nodes that wait, in the order in which they will be visited. -/
def Progress.queue (s : Progress F) : List ℕ := s.worklist.queue

namespace Problem
variable (p : Problem F)

@[simp] theorem visit_input (s : Progress F) (n : ℕ) : (p.visit s n).input = p.gather s n := rfl

theorem visit_output (s : Progress F) (n : ℕ) :
    (p.visit s n).output = (p.transfer n (p.gather s n) (s.outputs.get n)).1 := rfl

theorem inputs_advance (s : Progress F) (n m : ℕ) (rest : Worklist) :
    (p.advance s n rest).inputs.get m = if n = m then p.gather s n else s.inputs.get m := by
  simp only [advance, Table.get_set, visit_input]

theorem outputs_advance (s : Progress F) (n m : ℕ) (rest : Worklist) :
    (p.advance s n rest).outputs.get m =
      if n = m then (p.visit s n).output else s.outputs.get m := by
  simp only [advance, Table.get_set]

/-- The queue after a visit is known from the queue before. -/
theorem queue_advance (s : Progress F) (n : ℕ) (rest : Worklist) : (p.advance s n rest).queue =
    if (p.visit s n).changed then enqueue rest.queue (p.targets n) else rest.queue := by
  rw [← Worklist.queue_extend, ← apply_ite Worklist.queue]
  rfl

theorem mem_queue_advance {s : Progress F} {n m : ℕ} {rest : Worklist} :
    m ∈ (p.advance s n rest).queue ↔
      m ∈ rest.queue ∨ (p.visit s n).changed = true ∧ m ∈ p.targets n := by
  rw [queue_advance]
  split
  · rename_i h
    simp [mem_enqueue, h]
  · rename_i h
    simp [h]

@[simp] theorem visits_advance (s : Progress F) (n : ℕ) (rest : Worklist) :
    (p.advance s n rest).visits = p.visit s n :: s.visits := rfl

@[simp] theorem inputs_start (n : ℕ) : p.start.inputs.get n = p.initial := rfl

theorem outputs_start (n : ℕ) :
    p.start.outputs.get n = if p.origin = n then p.boundary else p.initial := by
  simp only [start, Table.get_set, Table.get_const]

theorem queue_start : p.start.queue = enqueue [] p.seeds := Worklist.queue_ofList p.seeds

theorem mem_queue_start {n : ℕ} : n ∈ p.start.queue ↔ n ∈ p.seeds := by
  simp [queue_start, mem_enqueue]

/-- One turn of a run visits the first node of the worklist, if there is one. -/
def turn (s : Progress F) : Progress F :=
  match s.worklist.pop? with
  | none => s
  | some (n, rest) => p.advance s n rest

theorem turn_cases (s : Progress F) : s.queue = [] ∧ p.turn s = s ∨
    ∃ n rest, s.queue = n :: rest.queue ∧ p.turn s = p.advance s n rest := by
  obtain ⟨hpop, hq⟩ | ⟨n, rest, hpop, hq⟩ := s.worklist.pop?_cases
  · exact Or.inl ⟨hq, by rw [turn, hpop]⟩
  · exact Or.inr ⟨n, rest, hq, by rw [turn, hpop]⟩

theorem turn_of_done {s : Progress F} (h : s.queue = []) : p.turn s = s := by
  obtain ⟨_, hturn⟩ | ⟨n, rest, hq, _⟩ := p.turn_cases s
  · exact hturn
  · rw [h] at hq
    cases hq

/-- As many turns as there is fuel. -/
def run (fuel : ℕ) (s : Progress F) : Progress F := p.turn^[fuel] s

theorem run_turn (fuel : ℕ) (s : Progress F) : p.run (fuel + 1) s = p.run fuel (p.turn s) := rfl

theorem run_succ (fuel : ℕ) (s : Progress F) : p.run (fuel + 1) s = p.turn (p.run fuel s) :=
  Function.iterate_succ_apply' p.turn fuel s

theorem run_of_done {s : Progress F} (h : s.queue = []) (fuel : ℕ) : p.run fuel s = s :=
  Function.iterate_fixed (p.turn_of_done h) fuel

/-- The loop does what a run does with the fuel that the limit leaves. It succeeds if the run
empties the queue, and fails if it does not. -/
theorem loop_eq_run {limit fuel : ℕ} {s : Progress F} (h : s.visits.length + fuel = limit) :
    p.loop limit s.visits.length s =
      (p.run fuel s, if (p.run fuel s).queue = [] then .ok (p.run fuel s).visits.length
        else .error (.fuelExhausted limit)) := by
  induction fuel generalizing s with
  | zero =>
    rw [loop]
    obtain ⟨hpop, hq⟩ | ⟨n, rest, hpop, hq⟩ := s.worklist.pop?_cases
    · have hdone : s.queue = [] := hq
      simp [hpop, p.run_of_done hdone, hdone]
    · have hspent : s.visits.length + 1 > limit := by omega
      simp [hpop, run, Progress.queue, hq, hspent]
  | succ fuel ih =>
    rw [loop]
    obtain ⟨hpop, hq⟩ | ⟨n, rest, hpop, hq⟩ := s.worklist.pop?_cases
    · have hdone : s.queue = [] := hq
      simp [hpop, p.run_of_done hdone, hdone]
    · have hleft : ¬s.visits.length + 1 > limit := by omega
      have hnext : p.run (fuel + 1) s = p.run fuel (p.advance s n rest) := by
        rw [run_turn, turn, hpop]
      have hlimit : (p.advance s n rest).visits.length + fuel = limit := by
        rw [visits_advance, List.length_cons]
        omega
      simp only [hpop, if_neg hleft, hnext]
      exact ih hlimit

theorem loop_start_eq_run (limit : ℕ) : p.loop limit 0 p.start =
    (p.run limit p.start, if (p.run limit p.start).queue = [] then
      .ok (p.run limit p.start).visits.length else .error (.fuelExhausted limit)) :=
  p.loop_eq_run (s := p.start) (Nat.zero_add limit)

variable {p} in
/-- A run whose queue is not empty has spent all its fuel on visits. -/
theorem length_visits_of_queue_ne_nil {fuel : ℕ} (h : (p.run fuel p.start).queue ≠ []) :
    (p.run fuel p.start).visits.length = fuel := by
  induction fuel with
  | zero => rfl
  | succ fuel ih =>
    rw [run_succ] at h ⊢
    obtain ⟨hq, hturn⟩ | ⟨n, rest, hq, hturn⟩ := p.turn_cases (p.run fuel p.start)
    · rw [hturn] at h
      exact absurd hq h
    · rw [hturn, visits_advance, List.length_cons, ih (by simp [hq])]

/-- The graph of a problem is its sources read backwards, and every node but the origin
that can be reached is visited at least once. -/
structure WellFormed : Prop where
  mem_targets : ∀ m n, n ∈ p.targets m ↔ m ∈ p.sources n
  seeded : ∀ m n, n ∈ p.targets m → n ∈ p.seeds
  origin_not_seeded : p.origin ∉ p.seeds

variable {p}

/-- Only seeds ever wait in the queue. -/
theorem seeded_of_queued (hp : p.WellFormed) (fuel : ℕ) {n : ℕ}
    (hn : n ∈ (p.run fuel p.start).queue) : n ∈ p.seeds := by
  induction fuel generalizing n with
  | zero => exact p.mem_queue_start.mp hn
  | succ fuel ih =>
    rw [run_succ] at hn
    obtain ⟨_, hturn⟩ | ⟨m, rest, hq, hturn⟩ := p.turn_cases (p.run fuel p.start)
    · rw [hturn] at hn
      exact ih hn
    · rw [hturn] at hn
      rcases p.mem_queue_advance.mp hn with hn | ⟨_, hn⟩
      · exact ih (by rw [hq]; exact List.mem_cons_of_mem _ hn)
      · exact hp.seeded m n hn

/-- The next turn of a run visits a seed, if it does anything. -/
theorem run_succ_cases (hp : p.WellFormed) (fuel : ℕ) :
    p.run (fuel + 1) p.start = p.run fuel p.start ∨
    ∃ n rest, n ∈ p.seeds ∧ (p.run fuel p.start).queue = n :: rest.queue ∧
      p.run (fuel + 1) p.start = p.advance (p.run fuel p.start) n rest := by
  rw [run_succ]
  obtain ⟨_, hturn⟩ | ⟨n, rest, hq, hturn⟩ := p.turn_cases (p.run fuel p.start)
  · exact Or.inl hturn
  · have hn : n ∈ (p.run fuel p.start).queue := by simp [hq]
    exact Or.inr ⟨n, rest, seeded_of_queued hp fuel hn, hq, hturn⟩

/-- What each visit to a seed preserves holds throughout a run. -/
theorem run_invariant (hp : p.WellFormed) {P : Progress F → Prop} (hstart : P p.start)
    (hstep : ∀ s n rest, s.queue = n :: rest.queue → n ∈ p.seeds → P s → P (p.advance s n rest))
    (fuel : ℕ) : P (p.run fuel p.start) := by
  induction fuel with
  | zero => exact hstart
  | succ fuel ih =>
    obtain h | ⟨n, rest, hn, hq, h⟩ := run_succ_cases hp fuel
    · rw [h]
      exact ih
    · rw [h]
      exact hstep _ n rest hq hn ih

theorem gather_induction {s : Progress F} {n : ℕ} {P : F → Prop} (hin : P (s.inputs.get n))
    (hmerge : ∀ m ∈ p.sources n, ∀ t, P t → P (p.merge (s.outputs.get m) t)) :
    P (p.gather s n) :=
  List.foldlRecOn (p.sources n) _ hin fun t ht m hm => hmerge m hm t ht

/-- Properties of inputs and of outputs, which may differ from node to node, hold
throughout a run if merging and transfer pass them on along the arcs. -/
theorem run_facts (hp : p.WellFormed) {I O : ℕ → F → Prop}
    (hin : ∀ n, I n p.initial) (hout : ∀ n, O n p.initial)
    (hboundary : O p.origin p.boundary)
    (hmerge : ∀ n ∈ p.seeds, ∀ m ∈ p.sources n, ∀ f t, O m f → I n t → I n (p.merge f t))
    (htransfer : ∀ n ∈ p.seeds, ∀ f o, I n f → O n o → O n (p.transfer n f o).1)
    (fuel n : ℕ) :
    I n ((p.run fuel p.start).inputs.get n) ∧ O n ((p.run fuel p.start).outputs.get n) := by
  refine run_invariant hp (P := fun s => ∀ n, I n (s.inputs.get n) ∧ O n (s.outputs.get n))
    ?_ ?_ fuel n
  · intro n
    rw [outputs_start]
    split
    · rename_i h
      exact ⟨hin n, h ▸ hboundary⟩
    · exact ⟨hin n, hout n⟩
  · intro s n rest _ hn ih m
    have hgather : I n (p.gather s n) :=
      gather_induction (ih n).1 fun k hk t ht => hmerge n hn k hk _ t (ih k).2 ht
    rw [inputs_advance, outputs_advance]
    by_cases hnm : n = m
    · subst hnm
      simp only [↓reduceIte]
      exact ⟨hgather, htransfer n hn _ _ hgather (ih n).2⟩
    · simp only [if_neg hnm]
      exact ih m

end Problem
end ConstFlow
