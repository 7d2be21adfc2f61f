import ConstFlow.Constants.Value
import Mathlib.Order.Basic

/-! # The order on abstract values

The comparison of values is a partial order of height three, and `join` is its least
upper bound. The rank of a value counts the steps that lie below it.
-/
namespace ConstFlow.Value

instance : LE Value := ⟨fun a b => a.le b = true⟩

instance : DecidableLE Value := fun a b => inferInstanceAs (Decidable (a.le b = true))

theorem le_iff (a b : Value) : a ≤ b ↔ a = .undefined ∨ a = b ∨ b = .nac := by
  change a.le b = true ↔ _
  cases a <;> cases b <;> simp [le]

instance : PartialOrder Value where
  le_refl a := (le_iff a a).mpr (Or.inr (Or.inl rfl))
  le_trans a b c hab hbc := by
    rw [le_iff] at hab hbc ⊢
    rcases hab with rfl | rfl | rfl
    · exact Or.inl rfl
    · exact hbc
    · rcases hbc with h | rfl | rfl
      · cases h
      · exact Or.inr (Or.inr rfl)
      · exact Or.inr (Or.inr rfl)
  le_antisymm a b hab hba := by
    rw [le_iff] at hab hba
    rcases hab with rfl | rfl | rfl
    · rcases hba with rfl | rfl | h
      · rfl
      · rfl
      · cases h
    · rfl
    · rcases hba with h | rfl | rfl
      · cases h
      · rfl
      · rfl

@[simp] theorem undefined_le (a : Value) : undefined ≤ a := (le_iff _ _).mpr (Or.inl rfl)

@[simp] theorem le_nac (a : Value) : a ≤ nac := (le_iff _ _).mpr (Or.inr (Or.inr rfl))

theorem constant_le_iff {c : Int32} {a : Value} : constant c ≤ a ↔ a = constant c ∨ a = nac := by
  rw [le_iff]
  simp [eq_comm]

@[simp] theorem join_undefined (a : Value) : a.join undefined = a := by cases a <;> rfl

@[simp] theorem undefined_join (a : Value) : undefined.join a = a := by cases a <;> rfl

theorem le_join_left (a b : Value) : a ≤ a.join b := by
  rw [le_iff]
  cases a <;> cases b <;> simp [join, em]

theorem join_comm (a b : Value) : a.join b = b.join a := by
  cases a <;> cases b <;> simp [join, eq_comm]
  split <;> simp_all

theorem le_join_right (a b : Value) : b ≤ a.join b := join_comm b a ▸ le_join_left b a

theorem join_le {a b c : Value} (ha : a ≤ c) (hb : b ≤ c) : a.join b ≤ c := by
  rw [le_iff] at ha hb ⊢
  rcases ha with rfl | rfl | rfl
  · simpa using hb
  · rcases hb with rfl | rfl | rfl
    · simp
    · cases b <;> simp [join]
    · simp
  · simp

/-- How many values can lie below a value in a chain. -/
def rank : Value → ℕ
  | undefined => 0
  | constant _ => 1
  | nac => 2

theorem rank_le_two (a : Value) : a.rank ≤ 2 := by cases a <;> simp [rank]

theorem rank_mono {a b : Value} (h : a ≤ b) : a.rank ≤ b.rank := by
  rw [le_iff] at h
  rcases h with rfl | rfl | rfl
  · simp [rank]
  · exact Nat.le_refl _
  · exact rank_le_two a

theorem rank_lt_rank {a b : Value} (h : a ≤ b) (hne : a ≠ b) : a.rank < b.rank := by
  rw [le_iff] at h
  rcases h with rfl | h | rfl
  · cases b <;> simp_all [rank]
  · exact absurd h hne
  · cases a <;> simp_all [rank]

end ConstFlow.Value
