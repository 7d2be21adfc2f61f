import ConstFlow.Proofs.Constants.DefiniteAssignment

/-! # What a transfer reads and writes

The lists of the variables that a statement uses and assigns are made without regard to
evaluation. They still bound it: the value that a transfer stores depends on used variables
only, whether it is folded, copied, unknown after a fault or taken back to undefined, and no
other value is touched. Stores to fields, elements and variables that are not followed write
nothing, though they use variables too.
-/
namespace ConstFlow

/-- Evaluation depends on the used variables only. -/
theorem Expression.evaluate_congr {e : Expression} {f g : Valuation}
    (h : ∀ v ∈ e.uses, f.get v = g.get v) : e.evaluate f = e.evaluate g := by
  have hlookups : ∀ v ∈ e.lookups, f.get v = g.get v := fun v hv => h v (e.lookups_subset_uses hv)
  apply le_antisymm
  · exact evaluate_le_evaluate fun v hv => (hlookups v hv).le
  · exact evaluate_le_evaluate fun v hv => (hlookups v hv).ge

/-- The value of a definition is evaluated from used variables. -/
theorem Statement.uses_subset_of_intDefinition {s : Statement} {x : Variable} {e : Expression}
    (h : s.intDefinition? = some (x, e)) : e.uses ⊆ s.uses := by
  rw [(intDefinition?_eq_some_iff.mp h).1]
  exact List.subset_append_left _ _

/-- The variable is followed and assigned by the statement, if perhaps under another name. -/
def Statement.Writes (s : Statement) (v : Variable) : Prop :=
  ∃ d, s.assigned? = some d ∧ d.holdsInt = true ∧ (d == v) = true

theorem Statement.writes_iff {s : Statement} {v : Variable} :
    s.Writes v ↔ ∃ d e, s.intDefinition? = some (d, e) ∧ (d == v) = true := by
  constructor
  · rintro ⟨d, hd, hint, hdv⟩
    obtain ⟨e, rfl⟩ := assigned?_eq_some_iff.mp hd
    exact ⟨d, e, intDefinition?_eq_some_iff.mpr ⟨rfl, hint⟩, hdv⟩
  · rintro ⟨d, e, hd, hdv⟩
    obtain ⟨rfl, hint⟩ := intDefinition?_eq_some_iff.mp hd
    exact ⟨d, rfl, hint, hdv⟩

namespace ConstantPropagation
variable {s : Statement} {v : Variable} {f g : Valuation}

/-- What is written is the same from all valuations that agree on the used variables. -/
theorem get_effect_congr (hv : s.Writes v) (h : ∀ u ∈ s.uses, f.get u = g.get u) :
    (effect s f).get v = (effect s g).get v := by
  obtain ⟨d, e, hd, hdv⟩ := Statement.writes_iff.mp hv
  rw [get_effect hd, get_effect hd, if_pos hdv, if_pos hdv]
  exact Expression.evaluate_congr fun u hu => h u (Statement.uses_subset_of_intDefinition hd hu)

/-- All that is not written stays. -/
theorem get_effect_of_not_writes (hv : ¬s.Writes v) (f : Valuation) :
    (effect s f).get v = f.get v := by
  cases hd : s.intDefinition? with
  | none => rw [effect_of_not_intDefinition hd]
  | some d =>
    rw [get_effect hd, if_neg]
    intro hdv
    exact hv (Statement.writes_iff.mpr ⟨d.1, d.2, hd, hdv⟩)

/-- The old output has no say in the values after a transfer. -/
theorem get_transfer (settings : Settings) (s : Statement) (f o : Valuation) (v : Variable) :
    ((analysis settings).transfer s f o).1.get v = (effect s f).get v :=
  (Valuation.beq_iff_get _ _).mp ((lawful settings).transfer_beq s f o) v

/-- A transfer stores a value that depends on used variables only, under the followed variable
that the statement assigns, and keeps all other values of its input. -/
theorem transfer_reads_uses_writes_assigned (settings : Settings) (s : Statement)
    (f g o o' : Valuation) (h : ∀ u ∈ s.uses, f.get u = g.get u) :
    let after := ((analysis settings).transfer s f o).1
    let after' := ((analysis settings).transfer s g o').1
    (∀ d, s.assigned? = some d → d.holdsInt = true → after.get d = after'.get d) ∧
    ∀ v, (∀ d, s.assigned? = some d → d.holdsInt = true → (d == v) = false) →
      after.get v = f.get v ∧ after'.get v = g.get v := by
  intro after after'
  constructor
  · intro d hd hint
    rw [get_transfer, get_transfer]
    exact get_effect_congr ⟨d, hd, hint, BEq.rfl⟩ h
  · intro v hv
    have hkept : ¬s.Writes v := by
      rintro ⟨d, hd, hint, hdv⟩
      rw [hv d hd hint] at hdv
      cases hdv
    rw [get_transfer, get_transfer]
    exact ⟨get_effect_of_not_writes hkept f, get_effect_of_not_writes hkept g⟩

/-- An update that divides by zero, from inputs that hold the operands in another order and
differ in `z`, over outputs that know other values of both. -/
theorem faulting_update_reads_operands :
    let x := Sample.int 0 "x"
    let y := Sample.int 1 "y"
    let z := Sample.int 2 "z"
    let s := Statement.define ⟨.var x, .binary ⟨x, y, .arithmetic .rem⟩⟩
    let f := Valuation.ofList [(x, .constant 7), (y, .constant 0), (z, .constant 1)]
    let g := Valuation.ofList [(y, .constant 0), (x, .constant 7)]
    let o := Valuation.ofList [(z, .nac), (x, .constant 3)]
    (∀ u ∈ s.uses, f.get u = g.get u) ∧ s.assigned? = some x ∧ x.holdsInt = true ∧
    (analysis.transfer s f o).1.get x = (analysis.transfer s g .empty).1.get x ∧
    (∀ d, s.assigned? = some d → d.holdsInt = true → (d == z) = false) ∧
    (analysis.transfer s f o).1.get z = .constant 1 ∧
    (analysis.transfer s g .empty).1.get z = .undefined := by
  intro x y z s f g o
  have hagree : ∀ u ∈ s.uses, f.get u = g.get u := by decide
  have hother : ∀ d, s.assigned? = some d → d.holdsInt = true → (d == z) = false := by
    rintro d hd -
    cases hd
    rfl
  obtain ⟨hwritten, hkept⟩ := transfer_reads_uses_writes_assigned settings s f g o .empty hagree
  obtain ⟨hf, hg⟩ := hkept z hother
  exact ⟨hagree, rfl, rfl, hwritten x rfl rfl, hother, hf, hg⟩

end ConstantPropagation
end ConstFlow
