import Mathlib.Data.List.Induction

/-! # Positions in a growing list

An element of a list that grows at its end is the new one, or it stood there before with one
element less behind it. Of the elements with a property one stands last.
-/
namespace ConstFlow
variable {α : Type}

theorem concat_eq_append_cons_iff {l earlier later : List α} {a b : α} :
    l ++ [a] = earlier ++ b :: later ↔
      earlier = l ∧ b = a ∧ later = [] ∨
        ∃ rest, later = rest ++ [a] ∧ l = earlier ++ b :: rest := by
  cases later using List.reverseRecOn with
  | nil =>
    rw [List.append_singleton_inj]
    constructor
    · rintro ⟨rfl, rfl⟩
      exact Or.inl ⟨rfl, rfl, rfl⟩
    · rintro (⟨rfl, rfl, _⟩ | ⟨rest, hrest, _⟩)
      · exact ⟨rfl, rfl⟩
      · simp at hrest
  | append_singleton later c =>
    rw [← List.cons_append, ← List.append_assoc, List.append_singleton_inj]
    constructor
    · rintro ⟨rfl, rfl⟩
      exact Or.inr ⟨later, rfl, rfl⟩
    · rintro (⟨_, _, hnil⟩ | ⟨rest, hrest, rfl⟩)
      · simp at hnil
      · obtain ⟨rfl, rfl⟩ := List.append_singleton_inj.mp hrest
        exact ⟨rfl, rfl⟩

theorem exists_last {l : List α} {P : α → Prop} (h : ∃ a ∈ l, P a) :
    ∃ earlier a later, l = earlier ++ a :: later ∧ P a ∧ ∀ b ∈ later, ¬P b := by
  induction l using List.reverseRecOn with
  | nil => simp at h
  | append_singleton l a ih =>
    by_cases ha : P a
    · exact ⟨l, a, [], rfl, ha, by simp⟩
    · have hl : ∃ b ∈ l, P b := by
        obtain ⟨b, hb, hPb⟩ := h
        rcases List.mem_append.mp hb with hb | hb
        · exact ⟨b, hb, hPb⟩
        · cases List.mem_singleton.mp hb
          exact absurd hPb ha
      obtain ⟨earlier, b, later, rfl, hb, hlater⟩ := ih hl
      refine ⟨earlier, b, later ++ [a], by simp, hb, ?_⟩
      intro c hc
      rcases List.mem_append.mp hc with hc | hc
      · exact hlater c hc
      · cases List.mem_singleton.mp hc
        exact ha

end ConstFlow
