import ConstFlow.Program.Procedure
import Mathlib.Data.Nat.Notation

/-! # Editing

What every edit preserves holds of a procedure however it was written. An edit leaves the
targets of labels as they are, or adds the one that it reports. In particular no label is
bound beyond the end, because a label takes the position of the next statement and
statements are only added.
-/
namespace ConstFlow

namespace Edit

def createsLabel : Edit → Bool
  | .newLabel => true
  | .declare .. | .bind _ | .push _ => false

def pushes : Edit → Bool
  | .push _ => true
  | .declare .. | .newLabel | .bind _ => false

end Edit

namespace Procedure
variable {p : Procedure} {l : Label} {k : ℕ}

theorem edits_induction {P : Procedure → Prop} (hp : P p)
    (hedit : ∀ q e, P q → P (q.edit e).1) (es : List Edit) : P (p.edits es) :=
  List.foldlRecOn es _ hp fun q hq e _ => hedit q e hq

theorem labelTarget_eq_ok_iff {l : Label} {t : ℕ} :
    p.labelTarget l = .ok t ↔ p.labels.get? l.index = some (some t) := by
  rw [← Option.join_eq_some_iff]
  unfold labelTarget
  split
  · rename_i i hi
    rw [hi, Except.ok.injEq, Option.some_inj]
  · rename_i hnone
    simp [hnone]

/-- The only reason for a missing target is that the label is not bound. -/
theorem labelTarget_eq_error_iff {l : Label} {e : ProgramError} :
    p.labelTarget l = .error e ↔ e = .unboundLabel l ∧ ∀ t, p.labelTarget l ≠ .ok t := by
  unfold labelTarget
  split
  · simp
  · simp [eq_comm]

theorem bind_eq_ok_iff : (p.bind l).2 = .ok () ↔ p.labels.get? l.index = some none := by
  unfold bind
  split
  · rename_i h
    simp [h]
  · rename_i h
    simp [h]
  · rename_i h
    simp [h]

theorem bind_of_ok (h : (p.bind l).2 = .ok ()) :
    (p.bind l).1 = { p with labels := p.labels.set l.index (some p.statements.length) } := by
  simp only [bind, bind_eq_ok_iff.mp h]

/-- A bind that fails leaves the procedure as it is. -/
theorem bind_of_error {e : ProgramError} (h : (p.bind l).2 = .error e) : (p.bind l).1 = p := by
  unfold bind at h ⊢
  split at h
  · rfl
  · rfl
  · cases h

/-- A label cannot be bound that does not exist, or that has a target. -/
theorem bind_eq_error_iff {e : ProgramError} : (p.bind l).2 = .error e ↔
    e = .unboundLabel l ∧ p.labels.size ≤ l.index ∨
      e = .duplicateLabel l ∧ ∃ k, p.labelTarget l = .ok k := by
  have hsize : p.labels.size ≤ l.index ↔ p.labels.get? l.index = none :=
    List.getElem?_eq_none_iff.symm
  simp only [labelTarget_eq_ok_iff, hsize]
  unfold bind
  split
  · rename_i h
    simp [h, eq_comm]
  · rename_i h
    simp [h, eq_comm]
  · rename_i h
    simp [h]

theorem edit_bind_of_error {e : ProgramError} (h : (p.bind l).2 = .error e) :
    p.edit (.bind l) = (p, .failed e) := by
  have hbind : p.bind l = (p, .error e) := Prod.ext (bind_of_error h) h
  simp only [edit, hbind]

theorem edit_bind_of_ok (h : (p.bind l).2 = .ok ()) :
    p.edit (.bind l) = ((p.bind l).1, .bound) := by
  obtain ⟨q, hbind⟩ : ∃ q, p.bind l = (q, .ok ()) := ⟨_, Prod.ext rfl h⟩
  simp only [edit, hbind]

theorem length_statements_edit (p : Procedure) (e : Edit) :
    (p.edit e).1.statements.length = p.statements.length + if e.pushes then 1 else 0 := by
  cases e with
  | declare | newLabel => rfl
  | push s => exact List.length_append
  | bind l =>
    cases h : (p.bind l).2 with
    | error e =>
      rw [edit_bind_of_error h]
      rfl
    | ok =>
      rw [edit_bind_of_ok h, bind_of_ok h]
      rfl

theorem size_labels_edit (p : Procedure) (e : Edit) :
    (p.edit e).1.labels.size = p.labels.size + if e.createsLabel then 1 else 0 := by
  cases e with
  | declare | push => rfl
  | newLabel => exact List.length_append
  | bind l =>
    cases h : (p.bind l).2 with
    | error e =>
      rw [edit_bind_of_error h]
      rfl
    | ok =>
      rw [edit_bind_of_ok h, bind_of_ok h]
      exact List.length_set

theorem labelTarget_newLabel : p.newLabel.1.labelTarget l = .ok k ↔ p.labelTarget l = .ok k := by
  rw [labelTarget_eq_ok_iff, labelTarget_eq_ok_iff]
  change (p.labels.items ++ [none])[l.index]? = some (some k) ↔ p.labels.items[l.index]? = _
  rw [List.getElem?_append]
  split
  · exact Iff.rfl
  · rename_i hle
    have hnone : p.labels.items[l.index]? = none := List.getElem?_eq_none_iff.mpr (by omega)
    rw [hnone, List.getElem?_singleton]
    split <;> simp

theorem labelTarget_of_bind {m : Label} (h : (p.bind m).2 = .ok ()) :
    (p.bind m).1.labelTarget l = .ok k ↔
      p.labelTarget l = .ok k ∨ m = l ∧ k = p.statements.length := by
  have hfree := bind_eq_ok_iff.mp h
  rw [bind_of_ok h, labelTarget_eq_ok_iff, labelTarget_eq_ok_iff, Registry.get?_set]
  by_cases hml : m = l
  · subst hml
    simp [hfree, eq_comm]
  · have hne : m.index ≠ l.index := fun h => hml (congrArg Label.mk h)
    simp [hml, hne]

/-- An edit keeps the targets that there are, and adds one if it binds a label. -/
theorem labelTarget_edit (p : Procedure) (e : Edit) (l : Label) (k : ℕ) :
    (p.edit e).1.labelTarget l = .ok k ↔ p.labelTarget l = .ok k ∨
      e = .bind l ∧ (p.edit e).2 = .bound ∧ k = p.statements.length := by
  cases e with
  | declare | push => exact (or_iff_left fun h => nomatch h.1).symm
  | newLabel => exact labelTarget_newLabel.trans (or_iff_left fun h => nomatch h.1).symm
  | bind m =>
    cases h : (p.bind m).2 with
    | error e =>
      rw [edit_bind_of_error h]
      exact (or_iff_left fun h => nomatch h.2.1).symm
    | ok =>
      rw [edit_bind_of_ok h, labelTarget_of_bind h]
      simp

/-- Labels are bound to positions of statements, or to the end. -/
def LabelsInRange (p : Procedure) : Prop :=
  ∀ l t, p.labelTarget l = .ok t → t ≤ p.statements.length

theorem LabelsInRange.edit (h : p.LabelsInRange) (e : Edit) : (p.edit e).1.LabelsInRange := by
  intro l t ht
  have hgrows : p.statements.length ≤ (p.edit e).1.statements.length := by
    rw [length_statements_edit]
    exact Nat.le_add_right _ _
  rcases (labelTarget_edit p e l t).mp ht with ht | ⟨_, _, rfl⟩
  · exact Nat.le_trans (h l t ht) hgrows
  · exact hgrows

theorem labelsInRange_edits (name : String) (es : List Edit) :
    ((named name).edits es).LabelsInRange :=
  edits_induction (fun _ _ ht => by cases ht) (fun _ e hq => hq.edit e) es

/-- Variables have the numbers of their positions. -/
def NumbersVariables (p : Procedure) : Prop := ∀ i x, p.variables.get? i = some x → x.id = i

theorem NumbersVariables.edit (h : p.NumbersVariables) (e : Edit) :
    (p.edit e).1.NumbersVariables := by
  cases e with
  | newLabel | push => exact h
  | bind l =>
    cases hl : (p.bind l).2 with
    | error e =>
      rw [edit_bind_of_error hl]
      exact h
    | ok =>
      rw [edit_bind_of_ok hl, bind_of_ok hl]
      exact h
  | declare name type isParam =>
    intro i x hx
    change (p.variables.items ++ [_])[i]? = some x at hx
    rw [List.getElem?_append] at hx
    split at hx
    · exact h i x hx
    · obtain ⟨hi, rfl⟩ := List.getElem?_eq_some_iff.mp hx
      rw [List.length_singleton] at hi
      rw [List.getElem_singleton]
      change p.variables.items.length = i
      omega

theorem numbersVariables_edits (name : String) (es : List Edit) :
    ((named name).edits es).NumbersVariables :=
  edits_induction (fun _ _ hx => nomatch hx) (fun _ e hq => hq.edit e) es

/-- No two variables have the same number. -/
theorem NumbersVariables.eq_of_id {x y : Variable} (h : p.NumbersVariables)
    (hx : x ∈ p.variables.items) (hy : y ∈ p.variables.items) (hid : x.id = y.id) : x = y := by
  obtain ⟨i, hi⟩ := List.mem_iff_getElem?.mp hx
  obtain ⟨j, hj⟩ := List.mem_iff_getElem?.mp hy
  have hij : i = j :=
    calc i = x.id := (h i x hi).symm
      _ = y.id := hid
      _ = j := h j y hj
  subst hij
  exact Option.some.inj (hi.symm.trans hj)

end Procedure
end ConstFlow
