import ConstFlow.Dataflow.Counting
import ConstFlow.Proofs.Dataflow.Solving
import Mathlib.Order.Bounds.Image
import Mathlib.Order.MinMax

/-! # A finished run finds the least solution

Throughout a run every output is at most the effect of its input, so facts only climb.
Hence an input that has gathered old outputs is still below every bound of the present
ones. A node that does not wait in the queue is settled: the outputs of its sources have
arrived and its own output is up to date. When the queue is empty this holds of all nodes.
-/
namespace ConstFlow
variable {F : Type} [BEq F] [Preorder F]

/-- Facts that solve the equations of an analysis over a graph: at the origin they are
given, and elsewhere an input is the least upper bound of the outputs of its sources and an
output is the effect of its input. They lie below any facts that are closed upwards. -/
structure IsLeastSolution (nodes : List ℕ) (origin : ℕ) (sources : ℕ → List ℕ)
    (effect : ℕ → F → F) (initial boundary : F) (inputs outputs : ℕ → F) : Prop where
  input_origin : inputs origin = initial
  output_origin : outputs origin = boundary
  isLUB_input : ∀ n ∈ nodes, n ≠ origin → IsLUB (outputs '' {m | m ∈ sources n}) (inputs n)
  input_of_no_sources : ∀ n ∈ nodes, n ≠ origin → sources n = [] → (inputs n == initial) = true
  output_beq : ∀ n ∈ nodes, n ≠ origin → (outputs n == effect n (inputs n)) = true
  least : ∀ inputs' outputs' : ℕ → F, boundary ≤ outputs' origin →
    (∀ n ∈ nodes, n ≠ origin →
      (∀ m ∈ sources n, outputs' m ≤ inputs' n) ∧ effect n (inputs' n) ≤ outputs' n) →
    ∀ n ∈ nodes, n ≠ origin → inputs n ≤ inputs' n ∧ outputs n ≤ outputs' n

/-- Which list the nodes come from does not matter. -/
theorem IsLeastSolution.congr_nodes {nodes nodes' : List ℕ} {origin : ℕ} {sources : ℕ → List ℕ}
    {effect : ℕ → F → F} {initial boundary : F} {inputs outputs : ℕ → F}
    (h : IsLeastSolution nodes origin sources effect initial boundary inputs outputs)
    (hn : ∀ n, n ≠ origin → (n ∈ nodes' ↔ n ∈ nodes)) :
    IsLeastSolution nodes' origin sources effect initial boundary inputs outputs where
  input_origin := h.input_origin
  output_origin := h.output_origin
  isLUB_input n hmem hne := h.isLUB_input n ((hn n hne).mp hmem) hne
  input_of_no_sources n hmem hne := h.input_of_no_sources n ((hn n hne).mp hmem) hne
  output_beq n hmem hne := h.output_beq n ((hn n hne).mp hmem) hne
  least inputs' outputs' hboundary hclosed n hmem hne :=
    h.least inputs' outputs' hboundary (fun m hm hmo => hclosed m ((hn m hmo).mpr hm) hmo) n
      ((hn n hne).mp hmem) hne

/-- Outputs are below the inputs that they come in at. -/
theorem IsLeastSolution.output_le_input {nodes : List ℕ} {origin : ℕ} {sources : ℕ → List ℕ}
    {effect : ℕ → F → F} {initial boundary : F} {inputs outputs : ℕ → F}
    (h : IsLeastSolution nodes origin sources effect initial boundary inputs outputs) {m n : ℕ}
    (hn : n ∈ nodes) (hne : n ≠ origin) (hm : m ∈ sources n) : outputs m ≤ inputs n :=
  (h.isLUB_input n hn hne).1 ⟨m, hm, rfl⟩

/-- In a forward solution the facts after a node are below those before its successors. -/
theorem IsLeastSolution.output_le_input_of_succ {g : FlowGraph} {effect : ℕ → F → F}
    {initial boundary : F} {inputs outputs : ℕ → F}
    (h : IsLeastSolution g.nodes g.entry g.preds effect initial boundary inputs outputs) {m n : ℕ}
    (hn : n ∈ g.succs m) : outputs m ≤ inputs n :=
  h.output_le_input (g.mem_nodes_of_succ hn) (g.succ_range hn).1.ne'
    (g.mem_preds_iff_mem_succs.mpr hn)

/-- A least solution lies below another one, of a problem with other effects, if its own
effects do not lead beyond the facts of that one. -/
theorem IsLeastSolution.le_of_effect_le {nodes : List ℕ} {origin : ℕ} {sources : ℕ → List ℕ}
    {effect effect' : ℕ → F → F} {initial boundary : F} {inputs outputs inputs' outputs' : ℕ → F}
    (h : IsLeastSolution nodes origin sources effect initial boundary inputs outputs)
    (h' : IsLeastSolution nodes origin sources effect' initial boundary inputs' outputs')
    (hle : ∀ n ∈ nodes, n ≠ origin → effect n (inputs' n) ≤ outputs' n) {n : ℕ} (hn : n ∈ nodes) :
    inputs n ≤ inputs' n ∧ outputs n ≤ outputs' n := by
  by_cases hne : n = origin
  · subst hne
    rw [h.input_origin, h.output_origin, h'.input_origin, h'.output_origin]
    exact ⟨le_rfl, le_rfl⟩
  · refine h.least inputs' outputs' h'.output_origin.ge ?_ n hn hne
    intro m hm hmo
    exact ⟨fun k hk => h'.output_le_input hm hmo hk, hle m hm hmo⟩

namespace Problem
variable {p : Problem F} {effect : ℕ → F → F}

/-- What holds of a run between two visits. -/
structure Climbing (p : Problem F) (effect : ℕ → F → F) (s : Progress F) : Prop where
  output_le : ∀ n ∈ p.seeds, s.outputs.get n ≤ effect n (s.inputs.get n)
  input_le : ∀ n ∈ p.seeds, ∀ u, (∀ m ∈ p.sources n, s.outputs.get m ≤ u) → s.inputs.get n ≤ u
  settled : ∀ n ∈ p.seeds, n ∉ s.queue →
    (∀ m ∈ p.sources n, s.outputs.get m ≤ s.inputs.get n) ∧
      effect n (s.inputs.get n) ≤ s.outputs.get n

section Climb
variable (hl : p.Lawful effect) {s : Progress F}
include hl

theorem input_le_gather (s : Progress F) (n : ℕ) : s.inputs.get n ≤ p.gather s n :=
  hl.target_le_mergeAll _ _ _

theorem source_le_gather {n m : ℕ} (hm : m ∈ p.sources n) : s.outputs.get m ≤ p.gather s n :=
  hl.le_mergeAll hm _

theorem Climbing.gather_le (hs : p.Climbing effect s) {n : ℕ} (hn : n ∈ p.seeds) {u : F}
    (hu : ∀ m ∈ p.sources n, s.outputs.get m ≤ u) : p.gather s n ≤ u :=
  hl.mergeAll_le (hs.input_le n hn u hu) hu

/-- A visit may only raise the output of its node. -/
theorem Climbing.output_le_visit (hs : p.Climbing effect s) {n : ℕ} (hn : n ∈ p.seeds) :
    s.outputs.get n ≤ (p.visit s n).output :=
  calc s.outputs.get n ≤ effect n (s.inputs.get n) := hs.output_le n hn
    _ ≤ effect n (p.gather s n) := hl.effect_mono n (input_le_gather hl s n)
    _ ≤ (p.visit s n).output := hl.le_transfer n _ _

theorem Climbing.outputs_le_advance (hs : p.Climbing effect s) {n : ℕ} (hn : n ∈ p.seeds)
    (rest : Worklist) (m : ℕ) : s.outputs.get m ≤ (p.advance s n rest).outputs.get m := by
  rw [outputs_advance]
  split
  · rename_i h
    exact h ▸ hs.output_le_visit hl hn
  · exact le_rfl

/-- Every output is what it was, or its targets wait. -/
theorem output_advance_le_or_queued (s : Progress F) (n : ℕ) (rest : Worklist) (m : ℕ) :
    (p.advance s n rest).outputs.get m ≤ s.outputs.get m ∨
      m = n ∧ ∀ k ∈ p.targets n, k ∈ (p.advance s n rest).queue := by
  rw [outputs_advance]
  by_cases h : n = m
  · subst h
    rw [if_pos rfl]
    cases hc : (p.visit s n).changed with
    | false => exact Or.inl (hl.transfer_le_of_unchanged hc)
    | true => exact Or.inr ⟨rfl, fun k hk => p.mem_queue_advance.mpr (Or.inr ⟨hc, hk⟩)⟩
  · rw [if_neg h]
    exact Or.inl le_rfl

theorem Climbing.start (hp : p.WellFormed) : p.Climbing effect p.start where
  output_le n hn := by
    have hne : p.origin ≠ n := fun h => hp.origin_not_seeded (h ▸ hn)
    rw [outputs_start, if_neg hne]
    exact hl.initial_le _
  input_le n _ u _ := hl.initial_le u
  settled n hn hnq := absurd (p.mem_queue_start.mpr hn) hnq

/-- The visited node becomes settled. Of the others, those that it may unsettle have it as
a source, and they are put in the queue if its output has changed. -/
theorem Climbing.advance (hp : p.WellFormed) (hs : p.Climbing effect s) {n : ℕ} {rest : Worklist}
    (hq : s.queue = n :: rest.queue) (hn : n ∈ p.seeds) :
    p.Climbing effect (p.advance s n rest) where
  output_le k hk := by
    rw [outputs_advance, inputs_advance]
    by_cases h : n = k
    · subst h
      rw [if_pos rfl, if_pos rfl]
      exact hl.transfer_le n _ _
    · rw [if_neg h, if_neg h]
      exact hs.output_le k hk
  input_le k hk u hu := by
    have hold : ∀ m ∈ p.sources k, s.outputs.get m ≤ u := fun m hm =>
      (hs.outputs_le_advance hl hn rest m).trans (hu m hm)
    rw [inputs_advance]
    split
    · rename_i h
      subst h
      exact hs.gather_le hl hn hold
    · exact hs.input_le k hk u hold
  settled k hk hkq := by
    -- a source that had risen would have put `k` in the queue
    have hsource : ∀ m ∈ p.sources k, (p.advance s n rest).outputs.get m ≤ s.outputs.get m := by
      intro m hm
      rcases output_advance_le_or_queued hl s n rest m with h | ⟨rfl, h⟩
      · exact h
      · exact absurd (h k ((hp.mem_targets m k).mpr hm)) hkq
    rw [inputs_advance]
    by_cases h : n = k
    · subst h
      rw [if_pos rfl, outputs_advance, if_pos rfl]
      exact ⟨fun m hm => (hsource m hm).trans (source_le_gather hl hm), hl.le_transfer n _ _⟩
    · have hknew : k ∉ s.queue := by
        rw [hq]
        intro hmem
        rcases List.mem_cons.mp hmem with rfl | hmem
        · exact h rfl
        · exact hkq (p.mem_queue_advance.mpr (Or.inl hmem))
      obtain ⟨hin, hout⟩ := hs.settled k hk hknew
      rw [if_neg h, outputs_advance, if_neg h]
      exact ⟨fun m hm => (hsource m hm).trans (hin m hm), hout⟩

theorem Climbing.run (hp : p.WellFormed) (fuel : ℕ) : p.Climbing effect (p.run fuel p.start) :=
  run_invariant hp (Climbing.start hl hp) (fun _ _ _ hq hn hs => hs.advance hl hp hq hn) fuel

/-- Facts that are closed upwards in a region bound everything that a run computes there, as
long as the sources of the region lie in it. -/
theorem run_le (hp : p.WellFormed) {R : ℕ → Prop}
    (hR : ∀ n, R n → ∀ m ∈ p.sources n, R m) {inputs outputs : ℕ → F}
    (hboundary : p.boundary ≤ outputs p.origin)
    (hclosed : ∀ n ∈ p.seeds, R n →
      (∀ m ∈ p.sources n, outputs m ≤ inputs n) ∧ effect n (inputs n) ≤ outputs n)
    (fuel : ℕ) {n : ℕ} (hn : R n) :
    (p.run fuel p.start).inputs.get n ≤ inputs n ∧
      (p.run fuel p.start).outputs.get n ≤ outputs n := by
  have hfacts := run_facts hp (I := fun n f => R n → f ≤ inputs n)
    (O := fun n f => R n → f ≤ outputs n) (fun n _ => hl.initial_le _)
    (fun n _ => hl.initial_le _) (fun _ => hboundary) ?_ ?_ fuel n
  · exact hfacts.imp (· hn) (· hn)
  · intro n hseed m hm f t hf ht hn
    have hfact : f ≤ outputs m := hf (hR n hn m hm)
    exact hl.merge_le (hfact.trans ((hclosed n hseed hn).1 m hm)) (ht hn)
  · intro n hseed f o hf _ hn
    calc (p.transfer n f o).1 ≤ effect n f := hl.transfer_le n f o
      _ ≤ effect n (inputs n) := hl.effect_mono n (hf hn)
      _ ≤ outputs n := (hclosed n hseed hn).2

omit hl [BEq F] [Preorder F] in
/-- The origin is left alone. -/
theorem run_origin (hp : p.WellFormed) (fuel : ℕ) :
    (p.run fuel p.start).inputs.get p.origin = p.initial ∧
      (p.run fuel p.start).outputs.get p.origin = p.boundary := by
  refine run_invariant hp (P := fun s => s.inputs.get p.origin = p.initial ∧
    s.outputs.get p.origin = p.boundary) ⟨rfl, ?_⟩ ?_ fuel
  · rw [outputs_start, if_pos rfl]
  · intro s n rest _ hn hs
    have hne : n ≠ p.origin := fun h => hp.origin_not_seeded (h ▸ hn)
    rw [inputs_advance, outputs_advance, if_neg hne, if_neg hne]
    exact hs

theorem isLeastSolution_of_done (hp : p.WellFormed) {fuel : ℕ}
    (hdone : (p.run fuel p.start).queue = []) :
    IsLeastSolution p.seeds p.origin p.sources effect p.initial p.boundary
      (p.run fuel p.start).inputs.get (p.run fuel p.start).outputs.get := by
  have hs : p.Climbing effect (p.run fuel p.start) := Climbing.run hl hp fuel
  have hsettled := fun n hn => hs.settled n hn (by simp [hdone])
  refine ⟨(run_origin hp fuel).1, (run_origin hp fuel).2, ?_, ?_, ?_, ?_⟩
  · intro n hn _
    constructor
    · rintro f ⟨m, hm, rfl⟩
      exact (hsettled n hn).1 m hm
    · intro u hu
      exact hs.input_le n hn u fun m hm => hu ⟨m, hm, rfl⟩
  · intro n hn _ hnone
    have hle := hs.input_le n hn p.initial (by simp [hnone])
    exact hl.beq_of_le_of_le hle (hl.initial_le _)
  · intro n hn _
    exact hl.beq_of_le_of_le (hs.output_le n hn) (hsettled n hn).2
  · intro inputs outputs hboundary hclosed n hn _
    have hseed : ∀ n ∈ p.seeds, n ≠ p.origin := fun n hn h => hp.origin_not_seeded (h ▸ hn)
    exact run_le hl hp (R := fun _ => True) (fun _ _ _ _ => trivial) hboundary
      (fun n hn _ => hclosed n hn (hseed n hn)) fuel trivial

end Climb
end Problem

namespace Analysis
variable {a : Analysis F} {g : FlowGraph} {effect : Statement → F → F}

/-- A finished run of a lawful analysis has found the least solution of its problem. -/
theorem Lawful.isLeastSolution (hl : a.Lawful effect) {limit : ℕ}
    (hdone : (a.attempt g limit).queue = []) :
    IsLeastSolution g.nodes (a.problem g).origin (a.problem g).sources
      (fun n => effect (g.statement n)) a.initial (a.boundary g)
      (a.attempt g limit).inputs.get (a.attempt g limit).outputs.get := by
  rw [attempt_eq_run] at hdone ⊢
  exact (Problem.isLeastSolution_of_done (hl.problem g) (a.problem_wellFormed g) hdone).congr_nodes
    fun n hn => by rw [a.mem_seeds g, and_iff_left hn]

theorem Lawful.isLeastSolution_of_forward (hl : a.Lawful effect) (hd : a.direction = .forward)
    {limit : ℕ} {r : Solution F} (hr : a.solveWithin g limit = .ok r) :
    IsLeastSolution g.nodes g.entry g.preds (fun n => effect (g.statement n)) a.initial
      (a.boundary g) r.before.get r.after.get := by
  obtain ⟨hdone, rfl⟩ := solveWithin_eq_ok hr
  have h := Lawful.isLeastSolution hl hdone
  rw [problem_of_forward hd] at h
  simpa only [conclude, hd] using h

/-- Backward, the facts after a node are its inputs. -/
theorem Lawful.isLeastSolution_of_backward (hl : a.Lawful effect) (hd : a.direction = .backward)
    {limit : ℕ} {r : Solution F} (hr : a.solveWithin g limit = .ok r) :
    IsLeastSolution g.nodes g.exit g.succs (fun n => effect (g.statement n)) a.initial
      (a.boundary g) r.after.get r.before.get := by
  obtain ⟨hdone, rfl⟩ := solveWithin_eq_ok hr
  have h := Lawful.isLeastSolution hl hdone
  rw [problem_of_backward hd] at h
  simpa only [conclude, hd] using h

/-- A solution is the least one, whichever way the analysis goes. -/
theorem solveWithin_isLeastSolution (hl : a.Lawful effect) {limit : ℕ} {r : Solution F}
    (hr : a.solveWithin g limit = .ok r) :
    (∀ n ∈ g.nodes, r.inFact? n = some (r.before.get n) ∧ r.outFact? n = some (r.after.get n)) ∧
    (a.direction = .forward →
      IsLeastSolution g.nodes g.entry g.preds (fun n => effect (g.statement n)) a.initial
        (a.boundary g) r.before.get r.after.get) ∧
    (a.direction = .backward →
      IsLeastSolution g.nodes g.exit g.succs (fun n => effect (g.statement n)) a.initial
        (a.boundary g) r.after.get r.before.get) :=
  ⟨fun _ hn => facts_of_solveWithin hr hn, fun hd => hl.isLeastSolution_of_forward hd hr,
    fun hd => hl.isLeastSolution_of_backward hd hr⟩

end Analysis

/-- Counts by a monotone step are lawful if a change is claimed only where there is one. -/
theorem Counting.factLaws {ι : Type} {step : ℕ → ℕ} (hstep : Monotone step) :
    FactLaws 0 (fun fact target => max target fact)
      (fun (_ : ι) input output => (step input, step input != output)) fun _ => step where
  beq_iff f g := by rw [beq_iff_eq, le_antisymm_iff]
  initial_le := Nat.zero_le
  isLUB_merge f t := by
    rw [Set.pair_comm]
    exact isLUB_pair
  effect_mono _ := hstep
  transfer_beq _ _ _ := beq_self_eq_true _
  changed_iff _ input output := by simp

/-- Counting up to a ceiling is lawful over the natural numbers. -/
theorem Counting.lawful (settings : Settings) (direction : Direction) (top : ℕ) :
    (analysis settings direction (some top)).Lawful fun _ f => min (f + 1) top :=
  factLaws fun _ _ h => min_le_min_right top (Nat.succ_le_succ h)

/-- A loop that is counted up to three in both directions. -/
theorem Analysis.counted_loop_isLeastSolution :
    ∃ forth back, (Counting.analysis ⟨"count", 40⟩ .forward (some 3)).solve Sample.loop.graph =
        .ok forth ∧
      (Counting.analysis ⟨"count", 40⟩ .backward (some 3)).solve Sample.loop.graph = .ok back ∧
      IsLeastSolution Sample.loop.graph.nodes Sample.loop.graph.entry Sample.loop.graph.preds
        (fun _ f => min (f + 1) 3) 0 0 forth.before.get forth.after.get ∧
      IsLeastSolution Sample.loop.graph.nodes Sample.loop.graph.exit Sample.loop.graph.succs
        (fun _ f => min (f + 1) 3) 0 0 back.after.get back.before.get := by
  obtain ⟨forth, hforth⟩ : ∃ r, (Counting.analysis ⟨"count", 40⟩ .forward (some 3)).solve
      Sample.loop.graph = .ok r := ⟨_, rfl⟩
  obtain ⟨back, hback⟩ : ∃ r, (Counting.analysis ⟨"count", 40⟩ .backward (some 3)).solve
      Sample.loop.graph = .ok r := ⟨_, rfl⟩
  have hl := Counting.lawful ⟨"count", 40⟩
  have hleft := solveWithin_isLeastSolution (hl .forward 3) hforth
  have hright := solveWithin_isLeastSolution (hl .backward 3) hback
  exact ⟨forth, back, hforth, hback, hleft.2.1 rfl, hright.2.2 rfl⟩

end ConstFlow
