import ConstFlow.Proofs.Constants.DefiniteAssignment
import ConstFlow.Proofs.Constants.Origins
import ConstFlow.Proofs.Constants.Soundness
import ConstFlow.Proofs.Dataflow.SinglePass
import ConstFlow.Proofs.Flow.StraightLine
import Mathlib.Tactic.FinCases

/-! # Exactness on straight-line procedures

A straight-line procedure has one execution, which carries out its definitions of followed
variables in order. Unless that fails, the facts before a position are the words in the store
when control comes to it: each statement takes facts that mirror the store to facts that mirror
the next store, and nothing is merged with anything else on the way.
-/
namespace ConstFlow

/-! ## Execution in order -/

/-- The word that an expression has, if it is understood, reads assigned variables only and is
not at fault. -/
def Expression.word? (σ : Store) : Expression → Option Int32
  | int c => some c
  | var x => σ x.id
  | binary t => do
    let y ← σ t.left.id
    let z ← σ t.right.id
    (t.op.fold y z).toOption
  | long _ | neg _ | cast _ _ | field _ | element _ | call _ | alloc _ => none

/-- The store after a statement, which changes nothing unless it defines a followed variable. -/
def Statement.perform? (s : Statement) (σ : Store) : Option Store :=
  match s.intDefinition? with
  | some (x, e) => (e.word? σ).map fun c => Function.update σ x.id (some c)
  | none => some σ

/-- The store after the first `k` statements, when nothing is assigned before them. -/
def Procedure.storeAfter? (p : Procedure) (k : ℕ) : Option Store :=
  (p.statements.take k).foldlM (fun σ s => s.perform? σ) fun _ => none

/-- The first `k` statements assign `x`, which is followed. -/
def Procedure.AssignedBefore (p : Procedure) (k : ℕ) (x : Variable) : Prop :=
  x.holdsInt = true ∧ ∃ s ∈ p.statements.take k, s.assigned? = some x

theorem Expression.word?_binary_eq_some_iff {σ : Store} {t : BinaryTerm} {c : Int32} :
    (binary t).word? σ = some c ↔
      ∃ y z, σ t.left.id = some y ∧ σ t.right.id = some z ∧ t.op.fold y z = .ok c := by
  have hfold (y z : Int32) : (t.op.fold y z).toOption = some c ↔ t.op.fold y z = .ok c := by
    cases t.op.fold y z with
    | ok => simp [Except.toOption]
    | error => simp [Except.toOption]
  simp only [word?, Option.bind_eq_bind, Option.bind_eq_some_iff, hfold]
  constructor
  · rintro ⟨y, hy, z, hz, h⟩
    exact ⟨y, z, hy, hz, h⟩
  · rintro ⟨y, z, hy, hz, h⟩
    exact ⟨y, hy, z, hz, h⟩

theorem Expression.yields_of_word? {e : Expression} {σ : Store} {c : Int32}
    (h : e.word? σ = some c) : e.Yields σ (some c) := by
  cases e with
  | int => exact h.symm
  | var => exact h.symm
  | binary t =>
    obtain ⟨y, z, hy, hz, hfold⟩ := word?_binary_eq_some_iff.mp h
    exact ⟨y, z, c, hy, hz, hfold, rfl⟩
  | long | neg | cast | field | element | call | alloc => cases h

namespace Statement
variable {s : Statement} {σ σ' : Store} {x : Variable} {e : Expression}

theorem perform?_of_intDefinition (hd : s.intDefinition? = some (x, e)) :
    s.perform? σ = some σ' ↔ ∃ c, e.word? σ = some c ∧ σ' = Function.update σ x.id (some c) := by
  simp only [perform?, hd, Option.map_eq_some_iff, eq_comm]

theorem perform?_of_not_intDefinition (hd : s.intDefinition? = none) :
    s.perform? σ = some σ' ↔ σ' = σ := by
  simp only [perform?, hd, Option.some.injEq, eq_comm]

theorem updates_of_perform? (h : s.perform? σ = some σ') : s.Updates σ σ' := by
  cases hd : s.intDefinition? with
  | none => exact (updates_of_not_intDefinition hd).mpr ((perform?_of_not_intDefinition hd).mp h)
  | some d =>
    obtain ⟨c, hc, rfl⟩ := (perform?_of_intDefinition hd).mp h
    exact (updates_of_intDefinition hd).mpr ⟨_, Expression.yields_of_word? hc, rfl⟩

end Statement

namespace Procedure
variable {p : Procedure} {k n : ℕ} {s : Statement} {σ : Store} {x : Variable}

theorem storeAfter?_succ (hk : p.statements[k]? = some s) :
    p.storeAfter? (k + 1) = (p.storeAfter? k).bind s.perform? := by
  simp [storeAfter?, List.take_add_one, hk]

/-- An execution that comes to a position has come through all earlier ones. -/
theorem exists_storeAfter (h : (p.storeAfter? n).isSome) (hk : k ≤ n) :
    ∃ σ, p.storeAfter? k = some σ := by
  obtain ⟨τ, hτ⟩ := Option.isSome_iff_exists.mp h
  have hsplit : p.statements.take n =
      p.statements.take k ++ (p.statements.drop k).take (n - k) := by
    rw [← List.take_add, Nat.add_sub_cancel' hk]
  rw [storeAfter?, hsplit, List.foldlM_append] at hτ
  obtain ⟨σ, hσ, _⟩ := Option.bind_eq_some_iff.mp hτ
  exact ⟨σ, hσ⟩

/-- What holds of the empty store, and is preserved by every statement, holds after any number
of statements. -/
theorem storeAfter?_induction {P : ℕ → Store → Prop} (hstart : P 0 fun _ => none)
    (hstep : ∀ k s σ σ', p.statements[k]? = some s → s.perform? σ = some σ' → P k σ →
      P (k + 1) σ')
    (hk : k ≤ p.statements.length) (h : p.storeAfter? k = some σ) : P k σ := by
  induction k generalizing σ with
  | zero =>
    cases h
    exact hstart
  | succ k ih =>
    have hs := List.getElem?_eq_getElem hk
    rw [storeAfter?_succ hs] at h
    obtain ⟨τ, hτ, hperform⟩ := Option.bind_eq_some_iff.mp h
    exact hstep k _ τ σ hs hperform (ih (Nat.le_of_succ_le hk) hτ)

/-- The execution is a run of the procedure. -/
theorem StraightLine.run_of_storeAfter (hp : p.StraightLine) (hk : k ≤ p.statements.length)
    (h : p.storeAfter? k = some σ) :
    Relation.ReflTransGen p.Step ⟨0, fun _ => none⟩ ⟨k, σ⟩ := by
  refine storeAfter?_induction
    (P := fun k σ => Relation.ReflTransGen p.Step ⟨0, fun _ => none⟩ ⟨k, σ⟩) .refl ?_ hk h
  intro i s τ τ' hs hperform hrun
  have hnext : p.Follows i s (i + 1) := (hp.follows_iff hs).mpr rfl
  exact hrun.tail ⟨s, hs, hnext, Statement.updates_of_perform? hperform⟩

theorem assignedBefore_succ_iff (hk : p.statements[k]? = some s) :
    p.AssignedBefore (k + 1) x ↔
      p.AssignedBefore k x ∨ ∃ e, s.intDefinition? = some (x, e) := by
  have hlast : (∃ e, s.intDefinition? = some (x, e)) ↔
      x.holdsInt = true ∧ s.assigned? = some x := by
    rw [Statement.assigned?_eq_some_iff]
    simp only [Statement.intDefinition?_eq_some_iff, exists_and_right, and_comm]
  rw [hlast]
  simp only [AssignedBefore, List.take_add_one, hk, Option.toList_some, List.mem_append,
    List.mem_singleton, or_and_right, exists_or, exists_eq_left, and_or_left]

/-- Whatever has been assigned has a word in the store. -/
theorem AssignedBefore.exists_word (hx : p.AssignedBefore k x) (hk : k ≤ p.statements.length)
    (h : p.storeAfter? k = some σ) : ∃ c, σ x.id = some c := by
  refine storeAfter?_induction (P := fun k σ => p.AssignedBefore k x → ∃ c, σ x.id = some c)
    ?_ ?_ hk h hx
  · rintro ⟨_, s, hs, _⟩
    cases hs
  · intro j s τ τ' hs hperform ih hassigned
    rcases (assignedBefore_succ_iff hs).mp hassigned with hbefore | ⟨e, hd⟩
    · obtain ⟨c, hc⟩ := ih hbefore
      cases hd : s.intDefinition? with
      | none =>
        rw [(Statement.perform?_of_not_intDefinition hd).mp hperform]
        exact ⟨c, hc⟩
      | some d =>
        obtain ⟨c', _, rfl⟩ := (Statement.perform?_of_intDefinition hd).mp hperform
        by_cases hid : x.id = d.1.id
        · exact ⟨c', by rw [hid, Function.update_self]⟩
        · exact ⟨c, by rw [Function.update_of_ne hid, hc]⟩
    · obtain ⟨c, _, rfl⟩ := (Statement.perform?_of_intDefinition hd).mp hperform
      exact ⟨c, Function.update_self ..⟩

end Procedure

/-! ## Facts that mirror the store -/

namespace Valuation
variable {f f' : Valuation} {σ : Store}

/-- The valuation gives every variable its word as a constant, and nothing to the unassigned. -/
def Mirrors (f : Valuation) (σ : Store) : Prop :=
  ∀ x : Variable, f.get x = (σ x.id).elim .undefined .constant

theorem Mirrors.of_beq (hf : f.Mirrors σ) (h : (f' == f) = true) : f'.Mirrors σ := by
  intro x
  rw [(beq_iff_get f' f).mp h x]
  exact hf x

theorem Mirrors.get_of_word (hf : f.Mirrors σ) {x : Variable} {c : Int32}
    (h : σ x.id = some c) : f.get x = .constant c := by
  rw [hf x, h, Option.elim_some]

end Valuation

/-- Facts that mirror the store know the word of an expression. -/
theorem Expression.evaluate_of_word? {e : Expression} {f : Valuation} {σ : Store}
    (hf : f.Mirrors σ) {c : Int32} (h : e.word? σ = some c) : e.evaluate f = .constant c := by
  cases e with
  | int => exact congrArg Value.constant (Option.some.inj h)
  | var x => exact hf.get_of_word h
  | binary t =>
    obtain ⟨y, z, hy, hz, hfold⟩ := word?_binary_eq_some_iff.mp h
    rw [evaluate_binary, hf.get_of_word hy, hf.get_of_word hz, Operator.combine_constants, hfold]
  | long | neg | cast | field | element | call | alloc => cases h

namespace ConstantPropagation

/-- A statement takes facts that mirror the store before it to facts that mirror the store
after it. -/
theorem mirrors_effect {s : Statement} {f : Valuation} {σ σ' : Store} (hf : f.Mirrors σ)
    (h : s.perform? σ = some σ') : (effect s f).Mirrors σ' := by
  cases hd : s.intDefinition? with
  | none =>
    rw [effect_of_not_intDefinition hd, (Statement.perform?_of_not_intDefinition hd).mp h]
    exact hf
  | some d =>
    obtain ⟨c, hc, rfl⟩ := (Statement.perform?_of_intDefinition hd).mp h
    intro y
    rw [get_effect hd]
    by_cases hy : d.1 == y
    · rw [if_pos hy, ← Variable.beq_iff.mp hy, Function.update_self, Option.elim_some]
      exact Expression.evaluate_of_word? hf hc
    · have hne : y.id ≠ d.1.id := fun h => hy (Variable.beq_iff.mpr h.symm)
      rw [if_neg hy, Function.update_of_ne hne]
      exact hf y

/-- Nothing is defined at the entry of a procedure without parameters that are followed. -/
theorem mirrors_boundary {g : FlowGraph} (hparams : ∀ x ∈ g.procedure.params, x.holdsInt = false) :
    (boundary g).Mirrors fun _ => none := by
  intro x
  have hnone : ¬(g.procedure.params.any fun y => y.holdsInt && y == x) = true := by
    rw [List.any_eq_true]
    rintro ⟨y, hy, hint⟩
    rw [hparams y hy] at hint
    cases hint
  rw [get_boundary, if_neg hnone, Option.elim_none]

section Facts
variable {g : FlowGraph} {before after : ℕ → Valuation} (hp : g.procedure.StraightLine)
variable (hfacts : IsLeastSolution g.nodes g.entry g.preds (fun n => effect (g.statement n)) .empty
  (boundary g) before after)
include hp hfacts

/-- What comes in from the only node before a position is what holds there. -/
theorem before_beq_after {k : ℕ} (hk : k ≤ g.procedure.statements.length) :
    (before (k + 1) == after k) = true := by
  have hlub := hfacts.isLUB_input (k + 1) (g.succ_mem_nodes hk) (Nat.succ_ne_zero k)
  have hpreds : {m | m ∈ g.preds (k + 1)} = {k} :=
    Set.ext fun m => FlowGraph.mem_preds_of_straightLine hp hk
  rw [hpreds, Set.image_singleton] at hlub
  rw [Valuation.beq_iff_le_le]
  exact ⟨hlub.2 fun f hf => le_of_eq hf, hlub.1 (Set.mem_singleton _)⟩

theorem after_mirrors_store (hparams : ∀ x ∈ g.procedure.params, x.holdsInt = false) {k : ℕ}
    (hk : k ≤ g.procedure.statements.length) {σ : Store} (h : g.procedure.storeAfter? k = some σ) :
    (after k).Mirrors σ := by
  refine Procedure.storeAfter?_induction (P := fun k σ => (after k).Mirrors σ) ?_ ?_ hk h
  · have horigin : after 0 = boundary g := hfacts.output_origin
    rw [horigin]
    exact mirrors_boundary hparams
  · intro i s τ τ' hs hperform ih
    obtain ⟨hlt, _⟩ := List.getElem?_eq_some_iff.mp hs
    have hbefore : (before (i + 1)).Mirrors τ := ih.of_beq (before_beq_after hp hfacts hlt.le)
    have hafter := hfacts.output_beq (i + 1) (g.succ_mem_nodes hlt.le) (Nat.succ_ne_zero i)
    rw [g.statement_succ hs] at hafter
    exact (mirrors_effect hbefore hperform).of_beq hafter

end Facts

/-- In straight-line code, what holds a word at a position has been assigned before it. -/
theorem carries_assignedBefore {g : FlowGraph} (hp : g.procedure.StraightLine)
    (hparams : ∀ x ∈ g.procedure.params, x.holdsInt = false) :
    g.Carries (fun n => g.procedure.AssignedBefore (n - 1))
      (fun n => g.procedure.AssignedBefore n) where
  param x hx hint := by
    rw [hparams x hx] at hint
    cases hint
  define n x e hs hint := by
    have hd := Statement.intDefinition?_eq_some_iff.mpr ⟨hs, hint⟩
    obtain ⟨i, rfl, hi⟩ := g.exists_statement (Statement.ne_nop_of_intDefinition hd)
    exact (Procedure.assignedBefore_succ_iff hi).mpr (Or.inr ⟨e, hd⟩)
  keep n x hx := by
    obtain ⟨hint, s, hs, hassigned⟩ := hx
    exact ⟨hint, s, List.take_subset_take_left _ (Nat.sub_le n 1) hs, hassigned⟩
  arc m n x hn hx := by
    obtain ⟨_, rfl⟩ := (FlowGraph.mem_succs_of_straightLine hp).mp hn
    exact hx

/-- The entries of facts that mirror the store are the words of the variables assigned, if the
procedure knows these by their ids. -/
theorem mem_entries_iff {p : Procedure} {k : ℕ} {f : Valuation} {σ : Store}
    (hdeclared : ∀ s ∈ p.statements, ∀ x, s.assigned? = some x → p.variableOf x.id = .ok x)
    (hkeys : f.KeysHave (p.AssignedBefore k)) (hf : f.Mirrors σ) {x : Variable} {v : Value} :
    (x, v) ∈ f.entries ↔ p.AssignedBefore k x ∧ ∃ c, σ x.id = some c ∧ v = .constant c := by
  have hknown {y : Variable} (hy : p.AssignedBefore k y) : p.variableOf y.id = .ok y := by
    obtain ⟨_, s, hs, hassigned⟩ := hy
    exact hdeclared s (List.mem_of_mem_take hs) y hassigned
  constructor
  · intro hentry
    obtain ⟨hget, hdefined⟩ := Valuation.get?_eq_some_iff.mp (OrderedMap.get?_of_mem hentry)
    refine ⟨hkeys _ hentry, ?_⟩
    have hword := hf x
    cases hσ : σ x.id with
    | none =>
      rw [hσ, Option.elim_none] at hword
      exact absurd (hget.symm.trans hword) hdefined
    | some c =>
      rw [hσ, Option.elim_some] at hword
      exact ⟨c, rfl, hget.symm.trans hword⟩
  · rintro ⟨hassigned, c, hc, rfl⟩
    have hget := Valuation.get?_eq_some_iff.mpr ⟨hf.get_of_word hc, Value.noConfusion⟩
    obtain ⟨⟨y, w⟩, hentry, hyx, hw⟩ := OrderedMap.exists_entry hget
    -- the variable stored has the id of `x`, and only one variable is declared under that id
    have hy := hknown (hkeys _ hentry)
    rw [Variable.beq_iff.mp hyx, hknown hassigned] at hy
    cases hy
    cases hw
    exact hentry

/-- A straight-line procedure without followed parameters, whose execution does not fail, is
solved in one pass. Before each position, the end included, the facts bind the followed
variables that have been assigned, each to its word in the store, and no others. -/
theorem exact_on_straight_line {settings : Settings} {p : Procedure} (hp : p.StraightLine)
    (hdeclared : ∀ s ∈ p.statements, ∀ x, s.assigned? = some x → p.variableOf x.id = .ok x)
    (hparams : ∀ x ∈ p.params, x.holdsInt = false)
    (hrun : (p.storeAfter? p.statements.length).isSome) :
    ∃ g, p.flowGraph = .ok g ∧ ∀ limit, g.size - 1 ≤ limit → ∃ r,
      (analysis settings).solveWithin g limit = .ok r ∧ r.iterations = g.size - 1 ∧
      ∀ k n, (g.nodeOf? k = some n ∨ k = p.statements.length ∧ n = g.exit) → ∃ σ f,
        p.storeAfter? k = some σ ∧ Relation.ReflTransGen p.Step ⟨0, fun _ => none⟩ ⟨k, σ⟩ ∧
        r.inFact? n = some f ∧ (∀ x, p.AssignedBefore k x → ∃ c, σ x.id = some c) ∧
        ∀ x v, (x, v) ∈ f.entries ↔
          p.AssignedBefore k x ∧ ∃ c, σ x.id = some c ∧ v = .constant c := by
  obtain ⟨g, hg⟩ := hp.exists_flowGraph
  refine ⟨g, hg, fun limit hlimit => ?_⟩
  obtain rfl := Procedure.procedure_of_flowGraph hg
  have hsorted : ((analysis settings).problem g).Sorted (· < ·) := by
    apply Analysis.sorted_of_forward rfl
    intro m n hn
    obtain ⟨_, rfl⟩ := (FlowGraph.mem_succs_of_straightLine hp).mp hn
    exact Nat.lt_succ_self m
  obtain ⟨r, hr, hiterations⟩ := Analysis.exists_solution_of_sorted hsorted hlimit
  refine ⟨r, hr, hiterations, fun k n hn => ?_⟩
  have hposition : k ≤ g.procedure.statements.length ∧ n = k + 1 := by
    rcases hn with hn | ⟨rfl, rfl⟩
    · obtain ⟨hlt, hn⟩ := Option.ite_none_right_eq_some.mp hn
      exact ⟨hlt.le, (Option.some.inj hn).symm⟩
    · exact ⟨le_rfl, rfl⟩
  obtain ⟨hk, rfl⟩ := hposition
  obtain ⟨σ, hσ⟩ := Procedure.exists_storeAfter hrun hk
  have hfacts := (lawful settings).isLeastSolution_of_forward rfl hr
  have hmirrors : (r.before.get (k + 1)).Mirrors σ :=
    (after_mirrors_store hp hfacts hparams hk hσ).of_beq (before_beq_after hp hfacts hk)
  have hkeys : (r.before.get (k + 1)).KeysHave (g.procedure.AssignedBefore k) :=
    (keysHave_facts (carries_assignedBefore hp hparams) hr (k + 1)).1
  have hin := (Analysis.facts_of_solveWithin hr (g.succ_mem_nodes hk)).1
  exact ⟨σ, _, hσ, hp.run_of_storeAfter hk hσ, hin, fun x hx => hx.exists_word hk hσ,
    fun x v => mem_entries_iff hdeclared hkeys hmirrors⟩

/-- Sums and products of words that change on the way, between a call and stores that are not
followed. -/
def updates : Procedure :=
  let (x, y) := (Sample.int 0 "x", Sample.int 1 "y")
  let (l, o) : Variable × Variable :=
    (⟨2, "l", .primitive .long⟩, ⟨3, "o", .object "java.lang.Object"⟩)
  (Procedure.named "updates").edits [Sample.declareInt "x", Sample.declareInt "y",
    .declare "l" l.type false, .declare "o" o.type false, .newLabel, .bind ⟨0⟩,
    Sample.assign x (.int 1),
    Sample.assign y (.int 3),
    Sample.assign x (.binary ⟨x, y, .arithmetic .add⟩),
    Sample.assign l (.long 5),
    .push (.define ⟨.field ⟨some o, "f"⟩, .var x⟩),
    .push (.call ⟨"touch", some o, [x]⟩),
    Sample.assign y (.int 7),
    .push .nop,
    Sample.assign y (.binary ⟨y, x, .arithmetic .mul⟩),
    .push (.ret (some y))]

/-- At the end `x` is four and `y` is 28, and the long and the object have no value. -/
theorem updates_exact_at_exit :
    updates.StraightLine ∧
    (∀ s ∈ updates.statements, ∀ x, s.assigned? = some x → updates.variableOf x.id = .ok x) ∧
    (∀ x ∈ updates.params, x.holdsInt = false) ∧
    (updates.storeAfter? updates.statements.length).isSome ∧
    ∃ g r f, updates.flowGraph = .ok g ∧ analysis.solveWithin g 11 = .ok r ∧ r.iterations = 11 ∧
      r.inFact? g.exit = some f ∧ (Sample.int 0 "x", .constant 4) ∈ f.entries ∧
      (Sample.int 1 "y", .constant 28) ∈ f.entries ∧
      ∀ x v, (x, v) ∈ f.entries → x.holdsInt = true := by
  have hp : updates.StraightLine := by decide
  have hdeclared : ∀ s ∈ updates.statements, ∀ x, s.assigned? = some x →
      updates.variableOf x.id = .ok x := by
    intro s hs x hx
    fin_cases hs <;> cases hx <;> rfl
  have hparams : ∀ x ∈ updates.params, x.holdsInt = false := fun x hx => nomatch hx
  have hrun : (updates.storeAfter? updates.statements.length).isSome := rfl
  obtain ⟨g, hg, hsolved⟩ := @exact_on_straight_line settings updates hp hdeclared hparams hrun
  have hprocedure : g.procedure = updates := Procedure.procedure_of_flowGraph hg
  have hsize : g.size = 12 := congrArg (fun p => p.statements.length + 2) hprocedure
  obtain ⟨r, hr, hiterations, hexact⟩ := hsolved 11 (by omega)
  obtain ⟨σ, f, hσ, _, hf, _, hentries⟩ := hexact _ g.exit (Or.inr ⟨rfl, rfl⟩)
  have hx : σ 0 = some 4 := by
    have hword : (updates.storeAfter? updates.statements.length).bind (· 0) = some 4 := rfl
    rwa [hσ] at hword
  have hy : σ 1 = some 28 := by
    have hword : (updates.storeAfter? updates.statements.length).bind (· 1) = some 28 := rfl
    rwa [hσ] at hword
  have hassigned (i : ℕ) {s : Statement} {x : Variable} (hs : updates.statements[i]? = some s)
      (hx : s.assigned? = some x) (hint : x.holdsInt = true) :
      updates.AssignedBefore updates.statements.length x := by
    rw [← List.take_length (l := updates.statements)] at hs
    exact ⟨hint, s, List.mem_of_getElem? hs, hx⟩
  refine ⟨hp, hdeclared, hparams, hrun, g, r, f, hg, hr, by omega, hf, ?_, ?_, ?_⟩
  · exact (hentries _ _).mpr ⟨hassigned 0 rfl rfl rfl, 4, hx, rfl⟩
  · exact (hentries _ _).mpr ⟨hassigned 1 rfl rfl rfl, 28, hy, rfl⟩
  · intro x v hentry
    exact ((hentries x v).mp hentry).1.1

end ConstantPropagation
end ConstFlow
