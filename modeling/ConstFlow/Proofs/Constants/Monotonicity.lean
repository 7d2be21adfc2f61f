import ConstFlow.Constants.Propagation
import ConstFlow.Proofs.Constants.ValuationOrder
import ConstFlow.Proofs.Dataflow.FactLaws

/-! # Constant propagation keeps the laws of facts

Evaluation is monotone although it is strict in neither of its least and greatest
values: an operand that rises from undefined to a zero divisor takes the term from
undefined to a fault, and a fault counts as `nac`. The effect of a statement inherits
this, and the flag of a transfer is the outcome of a comparison.
-/
namespace ConstFlow

/-- The value of a binary term over the values of its operands, faults included. -/
def Operator.combine (op : Operator) (a b : Value) : Value :=
  match op.foldValues a b with
  | .ok v => v
  | .error _ => .nac

namespace Operator

@[simp] theorem combine_nac_left (op : Operator) (b : Value) : op.combine .nac b = .nac := by
  simp [combine, foldValues]

@[simp] theorem combine_nac_right (op : Operator) (a : Value) : op.combine a .nac = .nac := by
  cases a <;> simp [combine, foldValues]

theorem combine_constants (op : Operator) (y z : Int32) :
    op.combine (.constant y) (.constant z) = match op.fold y z with
      | .ok c => .constant c
      | .error _ => .nac := by
  simp only [combine, foldValues]
  cases op.fold y z <;> rfl

theorem combine_undefined_left (op : Operator) {b : Value} (hb : b ≠ .nac) :
    op.combine .undefined b = .undefined := by
  cases b with
  | nac => exact absurd rfl hb
  | undefined => rfl
  | constant z => rfl

theorem combine_undefined_right (op : Operator) {a : Value} (ha : a ≠ .nac) :
    op.combine a .undefined = .undefined := by
  cases a with
  | nac => exact absurd rfl ha
  | undefined => rfl
  | constant y => rfl

theorem combine_mono_left (op : Operator) {a a' : Value} (h : a ≤ a') (b : Value) :
    op.combine a b ≤ op.combine a' b := by
  rcases (Value.le_iff a a').mp h with rfl | rfl | rfl
  · by_cases hb : b = .nac
    · simp [hb]
    · simp [op.combine_undefined_left hb]
  · exact le_rfl
  · simp

theorem combine_mono_right (op : Operator) (a : Value) {b b' : Value} (h : b ≤ b') :
    op.combine a b ≤ op.combine a b' := by
  rcases (Value.le_iff b b').mp h with rfl | rfl | rfl
  · by_cases ha : a = .nac
    · simp [ha]
    · simp [op.combine_undefined_right ha]
  · exact le_rfl
  · simp

/-- A known operand that rises does so to `nac`, and then the whole term does. -/
theorem combine_mono (op : Operator) {a a' b b' : Value} (ha : a ≤ a') (hb : b ≤ b') :
    op.combine a b ≤ op.combine a' b' :=
  (op.combine_mono_left ha b).trans (op.combine_mono_right a' hb)

end Operator

namespace Expression

@[simp] theorem evaluate_int (c : Int32) (f : Valuation) : (int c).evaluate f = .constant c := rfl

@[simp] theorem evaluate_var (x : Variable) (f : Valuation) : (var x).evaluate f = f.get x := rfl

@[simp] theorem evaluate_binary (t : BinaryTerm) (f : Valuation) :
    (binary t).evaluate f = t.op.combine (f.get t.left) (f.get t.right) := rfl

/-- The variables whose values decide about the value of the expression. -/
def lookups : Expression → List Variable
  | var x => [x]
  | binary t => t.uses
  | int _ | long _ | neg _ | cast _ _ | field _ | element _ | call _ | alloc _ => []

theorem lookups_subset_uses (e : Expression) : e.lookups ⊆ e.uses := by
  cases e with
  | var | binary => exact List.Subset.refl _
  | int | long | neg | cast | field | element | call | alloc => exact List.nil_subset _

/-- Only the values of the variables that are looked up have to rise. -/
theorem evaluate_le_evaluate {e : Expression} {f g : Valuation}
    (h : ∀ x ∈ e.lookups, f.get x ≤ g.get x) : e.evaluate f ≤ e.evaluate g := by
  cases e with
  | int c => exact le_rfl
  | var x => exact h x List.mem_cons_self
  | binary t =>
    have hright : t.right ∈ t.uses := List.mem_cons_of_mem _ List.mem_cons_self
    exact t.op.combine_mono (h t.left List.mem_cons_self) (h t.right hright)
  | long | neg | cast | field | element | call | alloc => exact le_rfl

theorem evaluate_mono (e : Expression) : Monotone e.evaluate :=
  fun _ _ h => evaluate_le_evaluate fun x _ => h x

end Expression

theorem Statement.intDefinition?_eq_some_iff {s : Statement} {x : Variable} {e : Expression} :
    s.intDefinition? = some (x, e) ↔ s = .define ⟨.var x, e⟩ ∧ x.holdsInt = true := by
  constructor
  · intro h
    rcases s with ⟨⟨y | _ | _, v⟩⟩ | _ | _ | _ | _ | _ <;> try cases h
    obtain ⟨z, hz, h⟩ := Option.map_eq_some_iff.mp h
    obtain ⟨hy, hint⟩ := Option.filter_eq_some_iff.mp hz
    cases hy
    cases h
    exact ⟨rfl, hint⟩
  · rintro ⟨rfl, hint⟩
    simp [intDefinition?, toDefinition?, Place.toVariable?, hint]

theorem Statement.ne_nop_of_intDefinition {s : Statement} {x : Variable} {e : Expression}
    (h : s.intDefinition? = some (x, e)) : s ≠ .nop := by
  rintro rfl
  cases h

namespace ConstantPropagation

/-- The parameters that are followed may have any value, and nothing else has one. -/
theorem get_boundary (g : FlowGraph) (x : Variable) :
    (boundary g).get x =
      if g.procedure.params.any (fun y => y.holdsInt && y == x) then .nac else .undefined := by
  unfold boundary Valuation.ofList
  rw [Valuation.get_foldl_update, List.any_filter, Valuation.get_empty]

theorem effect_of_intDefinition {s : Statement} {x : Variable} {e : Expression}
    (h : s.intDefinition? = some (x, e)) (f : Valuation) :
    effect s f = (f.update x (e.evaluate f)).1 := by
  simp only [effect, h]

theorem effect_of_not_intDefinition {s : Statement} (h : s.intDefinition? = none)
    (f : Valuation) : effect s f = f := by
  simp only [effect, h]

/-- The defined variable takes the value of its expression before the statement. -/
theorem get_effect {s : Statement} {x : Variable} {e : Expression}
    (h : s.intDefinition? = some (x, e)) (f : Valuation) (y : Variable) :
    (effect s f).get y = if x == y then e.evaluate f else f.get y := by
  rw [effect_of_intDefinition h, Valuation.get_update]

theorem effect_mono (s : Statement) : Monotone (effect s) := by
  intro f g h
  cases hs : s.intDefinition? with
  | none =>
    rw [effect_of_not_intDefinition hs, effect_of_not_intDefinition hs]
    exact h
  | some d =>
    intro y
    rw [get_effect hs, get_effect hs]
    split
    · exact d.2.evaluate_mono h
    · exact h y

theorem lawful (settings : Settings) : (analysis settings).Lawful effect :=
  .of_replacing Valuation.beq_iff_le_le Valuation.empty_le Valuation.isLUB_mergeInto effect_mono

/-- Merging joins the values of every variable, so that it forms least upper bounds and
any order of merges will do. The transfer is monotone, sees nothing of the old output, and
flags exactly the changes. -/
theorem merge_and_transfer_lawful (settings : Settings) :
    let a := analysis settings
    (∀ f t x, (a.merge f t).get x = (t.get x).join (f.get x)) ∧
    (∀ f t, IsLUB {f, t} (a.merge f t)) ∧
    (∀ (facts facts' : List Valuation) t, (∀ f, f ∈ facts ↔ f ∈ facts') →
      (facts.foldl (fun u f => a.merge f u) t == facts'.foldl (fun u f => a.merge f u) t) = true) ∧
    (∀ s f f' o o', f ≤ f' → (a.transfer s f o).1 ≤ (a.transfer s f' o').1) ∧
    (∀ s f f' o o', (f == f') = true → ((a.transfer s f o).1 == (a.transfer s f' o').1) = true) ∧
    ∀ s f o, (a.transfer s f o).2 = true ↔ ((a.transfer s f o).1 == o) = false := by
  intro a
  have h := lawful settings
  have hmono : ∀ s f f' o o', f ≤ f' → (a.transfer s f o).1 ≤ (a.transfer s f' o').1 := by
    intro s f f' o o' hf
    calc (a.transfer s f o).1 ≤ effect s f := h.transfer_le s f o
      _ ≤ effect s f' := effect_mono s hf
      _ ≤ (a.transfer s f' o').1 := h.le_transfer s f' o'
  refine ⟨Valuation.get_mergeInto, h.isLUB_merge, ?_, hmono, ?_, h.changed_iff⟩
  · intro facts facts' t hfacts
    exact h.mergeAll_beq id hfacts t
  · intro s f f' o o' hf
    exact h.beq_of_le_of_le (hmono s f f' o o' (h.le_of_beq hf)) (hmono s f' f o' o (h.ge_of_beq hf))

/-- A divisor that rises from undefined to zero takes the quotient from undefined to `nac`. -/
theorem quotient_rises_to_fault :
    let x : Variable := ⟨0, "x", .primitive .int⟩
    let y : Variable := ⟨1, "y", .primitive .int⟩
    let low := Valuation.ofList [(x, .constant 7)]
    let high := Valuation.ofList [(x, .constant 7), (y, .constant 0)]
    let s := Statement.define ⟨.var x, .binary ⟨x, y, .arithmetic .div⟩⟩
    let a := analysis
    (low ≤ high ∧ (a.transfer s low .empty).1 ≤ (a.transfer s high low).1) ∧
    ((high == high) = true ∧ ((a.transfer s high .empty).1 == (a.transfer s high low).1) = true) ∧
    ([low, high, low].foldl (fun u f => a.merge f u) .empty ==
      [high, low].foldl (fun u f => a.merge f u) .empty) = true := by
  intro x y low high s a
  obtain ⟨_, _, horder, hmono, hsame, _⟩ := merge_and_transfer_lawful settings
  have hle : low ≤ high := by
    intro v
    change low.get v ≤ (low.update y (.constant 0)).1.get v
    rw [Valuation.get_update]
    split
    · rename_i hv
      rw [← low.get_congr hv]
      exact Value.undefined_le _
    · exact le_rfl
  have hbeq : (high == high) = true := by decide
  refine ⟨⟨hle, hmono s low high .empty low hle⟩, ⟨hbeq, hsame s high high .empty low hbeq⟩, ?_⟩
  exact horder [low, high, low] [high, low] .empty fun f => by simp [or_comm]

end ConstantPropagation
end ConstFlow
