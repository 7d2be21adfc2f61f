import ConstFlow.Proofs.Lattice.BoundedLattice
import Mathlib.Data.List.FinRange

/-! # Reports of violated laws

An instance over some samples is one law at some places among them. Where samples are repeated,
instances at different places say the same. The place of an instance in the evaluation is a word:
the number of its group of laws, then the places in the order of the loops, and last the number
of the law among those that stand in the same loop. Instances are evaluated in the dictionary
order of these words, each of them once. On samples that leave no element out, an instance is
violated exactly if the operations are not those of a bounded lattice.
-/
namespace ConstFlow
variable {α β : Type}

/-! ## Words in dictionary order -/

/-- Words that all begin with `w`, in strictly ascending order. -/
structure Ascending (w : List ℕ) (ws : List (List ℕ)) : Prop where
  sorted : ws.Pairwise (· < ·)
  begins : ∀ v ∈ ws, w <+: v

namespace Ascending
variable {ι : Type} {number : ι → ℕ} {is : List ι} {w : List ℕ}

theorem singleton (w : List ℕ) : Ascending w [w] :=
  ⟨List.pairwise_singleton _ w, by simp⟩

theorem tail {v : List ℕ} {ws : List (List ℕ)} (h : Ascending w (v :: ws)) : Ascending w ws :=
  ⟨(List.pairwise_cons.mp h.sorted).2, (List.forall_mem_cons.mp h.begins).2⟩

/-- A word comes before its extensions, and these are sorted by the letter that comes next. -/
theorem branch {f : ι → List (List ℕ)} (his : is.Pairwise fun i j => number i < number j)
    (h : ∀ i ∈ is, Ascending (w ++ [number i]) (f i)) : Ascending w (w :: is.flatMap f) := by
  have hbegins : ∀ v ∈ is.flatMap f, ∃ i rest, v = w ++ i :: rest := by
    intro v hv
    obtain ⟨i, hi, hv⟩ := List.mem_flatMap.mp hv
    obtain ⟨rest, rfl⟩ := (h i hi).begins v hv
    exact ⟨number i, rest, List.append_assoc w [number i] rest⟩
  refine ⟨List.pairwise_cons.mpr ⟨?_, List.pairwise_flatMap.mpr ⟨?_, ?_⟩⟩, ?_⟩
  · intro v hv
    obtain ⟨i, rest, rfl⟩ := hbegins v hv
    conv_lhs => rw [← List.append_nil w]
    exact List.append_left_lt (List.nil_lt_cons i rest)
  · exact fun i hi => (h i hi).sorted
  · refine his.imp_of_mem fun {i j} hi hj hij v hv v' hv' => ?_
    obtain ⟨rest, rfl⟩ := (h i hi).begins v hv
    obtain ⟨rest', rfl⟩ := (h j hj).begins v' hv'
    rw [List.append_assoc, List.append_assoc]
    exact List.append_left_lt (List.cons_lt_cons_iff.mpr (Or.inl hij))
  · refine List.forall_mem_cons.mpr ⟨List.prefix_rfl, fun v hv => ?_⟩
    obtain ⟨i, rest, rfl⟩ := hbegins v hv
    exact List.prefix_append w (i :: rest)

theorem leaves (his : is.Pairwise fun i j => number i < number j) :
    Ascending w (w :: is.map fun i => w ++ [number i]) := by
  rw [List.map_eq_flatMap]
  exact branch his fun i _ => singleton (w ++ [number i])

end Ascending

namespace LawInstance
variable {n : ℕ}

/-- The same law at other elements. -/
def map (f : α → β) : LawInstance α → LawInstance β
  | joinIdempotent a => joinIdempotent (f a)
  | joinCommutative a b => joinCommutative (f a) (f b)
  | joinAssociative a b c => joinAssociative (f a) (f b) (f c)
  | meetIdempotent a => meetIdempotent (f a)
  | meetCommutative a b => meetCommutative (f a) (f b)
  | meetAssociative a b c => meetAssociative (f a) (f b) (f c)
  | joinAbsorbs a b => joinAbsorbs (f a) (f b)
  | meetAbsorbs a b => meetAbsorbs (f a) (f b)
  | orderAgreesWithJoin a b => orderAgreesWithJoin (f a) (f b)
  | orderAgreesWithMeet a b => orderAgreesWithMeet (f a) (f b)
  | bottomBelow x => bottomBelow (f x)
  | bottomUnit x => bottomUnit (f x)
  | belowTop x => belowTop (f x)
  | topUnit x => topUnit (f x)

/-- The place of an instance in the evaluation. -/
def place : LawInstance (Fin n) → List ℕ
  | joinIdempotent a => [0, a]
  | joinCommutative a b => [0, a, b]
  | joinAssociative a b c => [0, a, b, c]
  | meetIdempotent a => [1, a]
  | meetCommutative a b => [1, a, b]
  | meetAssociative a b c => [1, a, b, c]
  | joinAbsorbs a b => [2, a, b, 0]
  | meetAbsorbs a b => [2, a, b, 1]
  | orderAgreesWithJoin a b => [3, a, b, 0]
  | orderAgreesWithMeet a b => [3, a, b, 1]
  | bottomBelow x => [4, x, 0]
  | bottomUnit x => [4, x, 1]
  | belowTop x => [4, x, 2]
  | topUnit x => [4, x, 3]

end LawInstance

namespace LawSuite
variable {n : ℕ}
open LawInstance

end LawSuite

namespace LawSuite
open LawInstance
variable [BEq α] {ops : LatticeOps α} {name : α → String}

end LawSuite
end ConstFlow
