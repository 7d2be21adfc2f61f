import ConstFlow.Dataflow.Journal
import ConstFlow.Proofs.Collections.Positions
import ConstFlow.Proofs.Dataflow.Fuel

/-! # The order of visits

Nothing is asked of the analysis here. A node waits in the queue because it is a seed that has
not been visited, or because one of its sources has changed since its last visit, that visit
included. A visit takes its node out of the queue before it puts the targets in, so a node that
is its own target comes back. When the queue is empty every change has been answered.
-/
namespace ConstFlow
variable {F : Type}

/-- One of the visits has changed the output of a source of `n`. -/
def SourceChanged (sources : ℕ → List ℕ) (n : ℕ) (visits : List (Visit F)) : Prop :=
  ∃ v ∈ visits, v.changed = true ∧ v.node ∈ sources n

theorem SourceChanged.mono {sources : ℕ → List ℕ} {n : ℕ} {visits visits' : List (Visit F)}
    (h : SourceChanged sources n visits) (hsub : visits ⊆ visits') :
    SourceChanged sources n visits' := by
  obtain ⟨v, hv, hchanged, hsource⟩ := h
  exact ⟨v, hsub hv, hchanged, hsource⟩

/-- The visits of a finished run in their order. The seeds come first, every change that a
transfer claims is answered by later visits to the targets, a node is visited again only after
a change of a source, and its last visit leaves its final facts. -/
structure IsSchedule (transfer : ℕ → F → F → F × Bool) (seeds : List ℕ)
    (sources targets : ℕ → List ℕ) (inputs outputs : ℕ → Option F)
    (visits : List (Visit F)) : Prop where
  transferred : ∀ v ∈ visits, ∃ old, transfer v.node v.input old = (v.output, v.changed)
  seeds_first : ∃ revisits, visits.map Visit.node = seeds ++ revisits
  answered : ∀ earlier v later, visits = earlier ++ v :: later → v.changed = true →
    ∀ m ∈ targets v.node, ∃ w ∈ later, w.node = m
  caused : ∀ earlier v between w later, visits = earlier ++ v :: (between ++ w :: later) →
    v.node = w.node → (∀ u ∈ between, u.node ≠ w.node) →
    SourceChanged sources w.node (v :: between)
  final : ∀ n ∈ seeds, ∃ earlier v later, visits = earlier ++ v :: later ∧ v.node = n ∧
    (∀ w ∈ later, w.node ≠ n) ∧ inputs n = some v.input ∧ outputs n = some v.output

/-- The visits made so far, the latest last. -/
def Progress.history (s : Progress F) : List (Visit F) := s.visits.reverse

namespace Problem
variable (p : Problem F)

@[simp] theorem history_start : p.start.history = [] := rfl

@[simp] theorem history_advance (s : Progress F) (n : ℕ) (rest : Worklist) :
    (p.advance s n rest).history = s.history ++ [p.visit s n] :=
  List.reverse_cons

theorem exists_queue_advance (s : Progress F) (n : ℕ) (rest : Worklist) :
    ∃ extra, extra ⊆ p.targets n ∧ (p.advance s n rest).queue = rest.queue ++ extra := by
  rw [queue_advance]
  split
  · exact exists_enqueue_eq_append rest.queue (p.targets n)
  · exact ⟨[], List.nil_subset _, (List.append_nil rest.queue).symm⟩

/-- What holds of a run between two visits. A node that waits although it has been visited
waits for a change that has come since. -/
structure Scheduled (s : Progress F) : Prop where
  transferred : ∀ v ∈ s.history, ∃ old, p.transfer v.node v.input old = (v.output, v.changed)
  seeds_first : ∃ revisits, s.history.map Visit.node ++ s.queue = p.seeds ++ revisits
  answered : ∀ earlier v later, s.history = earlier ++ v :: later → v.changed = true →
    ∀ m ∈ p.targets v.node, m ∈ s.queue ∨ ∃ w ∈ later, w.node = m
  caused : ∀ earlier v between w later, s.history = earlier ++ v :: (between ++ w :: later) →
    v.node = w.node → (∀ u ∈ between, u.node ≠ w.node) →
    SourceChanged p.sources w.node (v :: between)
  queue_caused : ∀ earlier v later, s.history = earlier ++ v :: later → v.node ∈ s.queue →
    (∀ w ∈ later, w.node ≠ v.node) → SourceChanged p.sources v.node (v :: later)
  facts : ∀ earlier v later, s.history = earlier ++ v :: later →
    (∀ w ∈ later, w.node ≠ v.node) →
    s.inputs.get v.node = v.input ∧ s.outputs.get v.node = v.output

variable {p}

theorem Scheduled.start (hseeds : p.seeds.Nodup) : p.Scheduled p.start := by
  have hqueue : p.start.queue = p.seeds := p.queue_start.trans (enqueue_of_nodup hseeds)
  have hnone : ∀ earlier v later, p.start.history ≠ earlier ++ v :: later := by simp
  refine ⟨by simp, ⟨[], ?_⟩, ?_, ?_, ?_, ?_⟩
  · simp [hqueue]
  · exact fun earlier v later h => absurd h (hnone earlier v later)
  · exact fun earlier v between w later h => absurd h (hnone earlier v _)
  · exact fun earlier v later h => absurd h (hnone earlier v later)
  · exact fun earlier v later h => absurd h (hnone earlier v later)

section Step
variable {s : Progress F} {n : ℕ} {rest : Worklist}

theorem not_mem_rest (hq : s.queue = n :: rest.queue) : n ∉ rest.queue := by
  have hnodup : s.queue.Nodup := s.worklist.nodup
  rw [hq] at hnodup
  exact (List.nodup_cons.mp hnodup).1

variable (hs : p.Scheduled s) (hq : s.queue = n :: rest.queue)
include hs hq

theorem Scheduled.seeds_first_advance : ∃ revisits,
    (p.advance s n rest).history.map Visit.node ++ (p.advance s n rest).queue =
      p.seeds ++ revisits := by
  obtain ⟨revisits, hrevisits⟩ := hs.seeds_first
  obtain ⟨extra, _, hextra⟩ := p.exists_queue_advance s n rest
  refine ⟨revisits ++ extra, ?_⟩
  rw [← List.append_assoc, ← hrevisits, hq, hextra, history_advance]
  simp [visit]

/-- The visit itself answers what its node has been waiting for. -/
theorem Scheduled.answered_advance {earlier later : List (Visit F)} {v : Visit F}
    (h : (p.advance s n rest).history = earlier ++ v :: later) (hchanged : v.changed = true)
    {m : ℕ} (hm : m ∈ p.targets v.node) :
    m ∈ (p.advance s n rest).queue ∨ ∃ w ∈ later, w.node = m := by
  rw [history_advance, concat_eq_append_cons_iff] at h
  obtain ⟨_, rfl, _⟩ | ⟨before, rfl, h⟩ := h
  · exact Or.inl (p.mem_queue_advance.mpr (Or.inr ⟨hchanged, hm⟩))
  · obtain hqueued | ⟨w, hw, hwm⟩ := hs.answered earlier v before h hchanged m hm
    · rw [hq, List.mem_cons] at hqueued
      obtain rfl | hrest := hqueued
      · exact Or.inr ⟨p.visit s m, by simp, rfl⟩
      · exact Or.inl (p.mem_queue_advance.mpr (Or.inl hrest))
    · exact Or.inr ⟨w, List.mem_append_left _ hw, hwm⟩

/-- The node has been waiting in the queue, and so for a reason. -/
theorem Scheduled.caused_advance {earlier between later : List (Visit F)} {v w : Visit F}
    (h : (p.advance s n rest).history = earlier ++ v :: (between ++ w :: later))
    (hvw : v.node = w.node) (hbetween : ∀ u ∈ between, u.node ≠ w.node) :
    SourceChanged p.sources w.node (v :: between) := by
  rw [history_advance, ← List.cons_append, ← List.append_assoc, concat_eq_append_cons_iff] at h
  obtain ⟨h, rfl, _⟩ | ⟨before, rfl, h⟩ := h
  · have hqueued : v.node ∈ s.queue := by
      rw [hvw, hq]
      exact List.mem_cons_self
    rw [← hvw] at hbetween ⊢
    exact hs.queue_caused earlier v between h.symm hqueued hbetween
  · rw [List.append_assoc, List.cons_append] at h
    exact hs.caused earlier v between w before h hvw hbetween

/-- A node that still waits is not the visited one, and one that has begun to wait is a target
of the visited one, whose output has changed. -/
theorem Scheduled.queue_caused_advance (hp : p.WellFormed) {earlier later : List (Visit F)}
    {v : Visit F} (h : (p.advance s n rest).history = earlier ++ v :: later)
    (hv : v.node ∈ (p.advance s n rest).queue) (hlater : ∀ w ∈ later, w.node ≠ v.node) :
    SourceChanged p.sources v.node (v :: later) := by
  rw [history_advance, concat_eq_append_cons_iff] at h
  rcases p.mem_queue_advance.mp hv with hrest | ⟨hchanged, htarget⟩
  · obtain ⟨_, rfl, _⟩ | ⟨before, rfl, h⟩ := h
    · exact absurd hrest (not_mem_rest hq)
    · have hqueued : v.node ∈ s.queue := hq ▸ List.mem_cons_of_mem n hrest
      have hbefore : ∀ w ∈ before, w.node ≠ v.node :=
        fun w hw => hlater w (List.mem_append_left _ hw)
      refine (hs.queue_caused earlier v before h hqueued hbefore).mono ?_
      exact List.cons_subset_cons v (List.subset_append_left before _)
  · refine ⟨p.visit s n, ?_, hchanged, (hp.mem_targets n v.node).mp htarget⟩
    obtain ⟨_, rfl, _⟩ | ⟨before, rfl, _⟩ := h
    · exact List.mem_cons_self
    · simp

omit hq in
theorem Scheduled.facts_advance {earlier later : List (Visit F)} {v : Visit F}
    (h : (p.advance s n rest).history = earlier ++ v :: later)
    (hlater : ∀ w ∈ later, w.node ≠ v.node) :
    (p.advance s n rest).inputs.get v.node = v.input ∧
      (p.advance s n rest).outputs.get v.node = v.output := by
  rw [history_advance, concat_eq_append_cons_iff] at h
  rw [inputs_advance, outputs_advance]
  obtain ⟨_, rfl, _⟩ | ⟨before, rfl, h⟩ := h
  · have hnode : (p.visit s n).node = n := rfl
    rw [if_pos hnode.symm, if_pos hnode.symm]
    exact ⟨rfl, rfl⟩
  · have hne : n ≠ v.node := hlater (p.visit s n) (by simp)
    have hbefore : ∀ w ∈ before, w.node ≠ v.node :=
      fun w hw => hlater w (List.mem_append_left _ hw)
    rw [if_neg hne, if_neg hne]
    exact hs.facts earlier v before h hbefore

theorem Scheduled.advance (hp : p.WellFormed) : p.Scheduled (p.advance s n rest) where
  transferred v hv := by
    rw [history_advance, List.mem_append, List.mem_singleton] at hv
    rcases hv with hv | rfl
    · exact hs.transferred v hv
    · exact ⟨s.outputs.get n, rfl⟩
  seeds_first := hs.seeds_first_advance hq
  answered _ _ _ h hchanged _ hm := hs.answered_advance hq h hchanged hm
  caused _ _ _ _ _ h hvw hbetween := hs.caused_advance hq h hvw hbetween
  queue_caused _ _ _ h hv hlater := hs.queue_caused_advance hq hp h hv hlater
  facts _ _ _ h hlater := hs.facts_advance h hlater

end Step

theorem Scheduled.run (hp : p.WellFormed) (hseeds : p.seeds.Nodup) (fuel : ℕ) :
    p.Scheduled (p.run fuel p.start) :=
  run_invariant hp (Scheduled.start hseeds) (fun _ _ _ hq _ hs => hs.advance hq hp) fuel

/-- When nothing waits any more, all that has been waited for has come. -/
theorem Scheduled.isSchedule {s : Progress F} (hs : p.Scheduled s) (hdone : s.queue = [])
    {inputs outputs : ℕ → Option F} (hinputs : ∀ n ∈ p.seeds, inputs n = some (s.inputs.get n))
    (houtputs : ∀ n ∈ p.seeds, outputs n = some (s.outputs.get n)) :
    IsSchedule p.transfer p.seeds p.sources p.targets inputs outputs s.history := by
  obtain ⟨revisits, hrevisits⟩ := hs.seeds_first
  rw [hdone, List.append_nil] at hrevisits
  refine ⟨hs.transferred, ⟨revisits, hrevisits⟩, ?_, hs.caused, ?_⟩
  · intro earlier v later h hchanged m hm
    obtain hqueued | hvisited := hs.answered earlier v later h hchanged m hm
    · simp [hdone] at hqueued
    · exact hvisited
  · intro n hn
    have hvisited : n ∈ s.history.map Visit.node := hrevisits ▸ List.mem_append_left _ hn
    obtain ⟨earlier, v, later, h, rfl, hlater⟩ := exists_last (List.mem_map.mp hvisited)
    obtain ⟨hinput, houtput⟩ := hs.facts earlier v later h hlater
    refine ⟨earlier, v, later, h, rfl, hlater, ?_, ?_⟩
    · rw [hinputs v.node hn, hinput]
    · rw [houtputs v.node hn, houtput]

end Problem

namespace Analysis
variable (a : Analysis F) (g : FlowGraph)

/-- The line of the journal that tells of a visit, after what there is to remark. -/
def visitLine (v : Visit F) : JournalEntry :=
  let sides := match a.direction with
    | .forward => s!"in {a.text v.input} out {a.text v.output}"
    | .backward => s!"out {a.text v.input} in {a.text v.output}"
  ⟨.trace, s!"{g.label v.node}: {sides} changed={v.changed}"⟩

theorem filter_visitEntries (v : Visit F) :
    (a.visitEntries g v).filter (·.level = .trace) = [a.visitLine g v] := by
  have hremarks : ∀ remarks : List String,
      (remarks.map (JournalEntry.mk .debug)).filter (·.level = .trace) = [] := by simp
  rw [visitEntries, List.filter_append, hremarks]
  rfl

/-- The traced lines of a journal are those of the visits. -/
theorem filter_journal (limit : ℕ) : (a.journal g limit).filter (·.level = .trace) =
    (a.attempt g limit).history.map (a.visitLine g) := by
  have hvisits : ((a.attempt g limit).history.flatMap (a.visitEntries g)).filter
      (·.level = .trace) = (a.attempt g limit).history.map (a.visitLine g) := by
    rw [List.filter_flatMap, funext (a.filter_visitEntries g)]
    exact List.flatMap_pure_eq_map (a.visitLine g) _
  have hclosing : (a.closingEntries g (a.solveWithin g limit)).filter (·.level = .trace) = [] := by
    cases a.solveWithin g limit <;> rfl
  have hopening : ¬decide ((a.openingEntry g).level = .trace) = true := by simp [openingEntry]
  rw [journal, List.filter_append, List.filter_cons, if_neg hopening, hclosing, List.append_nil]
  exact hvisits

variable {a g} {limit : ℕ}

theorem isSchedule_of_done (hdone : (a.attempt g limit).queue = []) {inputs outputs : ℕ → Option F}
    (hfacts : ∀ n ∈ g.nodes, inputs n = some ((a.attempt g limit).inputs.get n) ∧
      outputs n = some ((a.attempt g limit).outputs.get n)) :
    IsSchedule (a.problem g).transfer (a.problem g).seeds (a.problem g).sources
      (a.problem g).targets inputs outputs (a.attempt g limit).history := by
  have hs : (a.problem g).Scheduled (a.attempt g limit) := by
    rw [attempt_eq_run]
    exact .run (a.problem_wellFormed g) (a.nodup_seeds g) limit
  have hseeds : ∀ n ∈ (a.problem g).seeds, n ∈ g.nodes := fun n hn => ((a.mem_seeds g).mp hn).1
  exact hs.isSchedule hdone (fun n hn => (hfacts n (hseeds n hn)).1)
    fun n hn => (hfacts n (hseeds n hn)).2

theorem isSchedule_of_forward (hd : a.direction = .forward) {r : Solution F}
    (hr : a.solveWithin g limit = .ok r) :
    IsSchedule (fun n => a.transfer (g.statement n)) ((List.range (g.size - 1)).map (· + 1))
      g.preds g.succs r.inFact? r.outFact? (a.attempt g limit).history := by
  have hfacts := fun n hn => facts_of_solveWithin (n := n) hr hn
  obtain ⟨hdone, rfl⟩ := solveWithin_eq_ok hr
  simp only [conclude, hd] at hfacts ⊢
  have h := isSchedule_of_done hdone hfacts
  rw [problem_of_forward hd, g.nodes_filter_ne_entry] at h
  exact h

theorem isSchedule_of_backward (hd : a.direction = .backward) {r : Solution F}
    (hr : a.solveWithin g limit = .ok r) :
    IsSchedule (fun n => a.transfer (g.statement n)) (List.range (g.size - 1)).reverse g.succs
      g.preds r.outFact? r.inFact? (a.attempt g limit).history := by
  have hfacts := fun n hn => (facts_of_solveWithin (n := n) hr hn).symm
  obtain ⟨hdone, rfl⟩ := solveWithin_eq_ok hr
  simp only [conclude, hd] at hfacts ⊢
  have h := isSchedule_of_done hdone hfacts
  rw [problem_of_backward hd, g.nodes_filter_ne_exit] at h
  exact h

/-- The visits behind a solution, which are as many as it counts and are traced one by one,
start with all nodes but the origin, in ascending order forward and in descending order
backward, and then follow the changes. Without a solution all fuel has gone into visits. -/
theorem attempt_visits_in_order (a : Analysis F) (g : FlowGraph) (limit : ℕ) :
    let visits := (a.attempt g limit).history
    let transfer := fun n => a.transfer (g.statement n)
    (a.journal g limit).filter (·.level = .trace) = visits.map (a.visitLine g) ∧
    (∀ r, a.solveWithin g limit = .ok r → r.iterations = visits.length ∧
      (a.direction = .forward → IsSchedule transfer ((List.range (g.size - 1)).map (· + 1))
        g.preds g.succs r.inFact? r.outFact? visits) ∧
      (a.direction = .backward → IsSchedule transfer (List.range (g.size - 1)).reverse
        g.succs g.preds r.outFact? r.inFact? visits)) ∧
    ∀ e, a.solveWithin g limit = .error e →
      e = .fuelExhausted limit ∧ visits.length = limit := by
  intro visits transfer
  have hlength : visits.length = (a.attempt g limit).visits.length := List.length_reverse
  refine ⟨a.filter_journal g limit, ?_, ?_⟩
  · intro r hr
    have hiterations := iterations_of_solveWithin hr
    exact ⟨hiterations.trans hlength.symm, fun hd => isSchedule_of_forward hd hr,
      fun hd => isSchedule_of_backward hd hr⟩
  · intro e he
    obtain ⟨rfl, hqueue⟩ := solveWithin_eq_error_iff.mp he
    rw [attempt_eq_run] at hlength hqueue
    have hspent := Problem.length_visits_of_queue_ne_nil hqueue
    exact ⟨rfl, hlength.trans hspent⟩

/-- A statement that jumps to itself. -/
def selfJump : Procedure :=
  (Procedure.named "spin").edits [.newLabel, .bind ⟨0⟩, .push (.jump ⟨0⟩)]

def selfJumpGraph : FlowGraph := ⟨selfJump, selfJump.arcs.toOption.getD [], rfl⟩

/-- The jump comes back until the count has reached three, and without end if it may go on. -/
theorem self_jump_visited_until_settled :
    let bounded := Counting.analysis ⟨"count", 40⟩ .forward (some 3)
    let endless := Counting.analysis ⟨"count", 40⟩
    let visits := (bounded.attempt selfJumpGraph 40).history
    visits.map Visit.node = [1, 2, 1, 1, 1] ∧
    (∃ r, bounded.solve selfJumpGraph = .ok r ∧ r.iterations = 5 ∧
      IsSchedule (fun n => bounded.transfer (selfJumpGraph.statement n)) [1, 2]
        selfJumpGraph.preds selfJumpGraph.succs r.inFact? r.outFact? visits) ∧
    endless.solve selfJumpGraph = .error (.fuelExhausted 40) ∧
      (endless.attempt selfJumpGraph 40).history.length = 40 := by
  intro bounded endless visits
  obtain ⟨r, hr⟩ : ∃ r, (Counting.analysis ⟨"count", 40⟩ .forward (some 3)).solveWithin
      selfJumpGraph 40 = .ok r := ⟨_, rfl⟩
  have hspent : (Counting.analysis ⟨"count", 40⟩).solveWithin selfJumpGraph 40 =
      .error (.fuelExhausted 40) := rfl
  have hnodes : visits.map Visit.node = [1, 2, 1, 1, 1] := by decide
  have hlength : visits.length = 5 := by
    rw [← List.length_map Visit.node, hnodes]
    rfl
  obtain ⟨_, hsolved, _⟩ := attempt_visits_in_order bounded selfJumpGraph 40
  obtain ⟨_, _, hfailed⟩ := attempt_visits_in_order endless selfJumpGraph 40
  obtain ⟨hiterations, hforward, _⟩ := hsolved r hr
  exact ⟨hnodes, ⟨r, hr, hiterations.trans hlength, hforward rfl⟩, hspent, (hfailed _ hspent).2⟩

end Analysis
end ConstFlow
