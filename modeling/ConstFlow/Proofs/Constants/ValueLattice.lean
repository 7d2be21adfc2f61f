import ConstFlow.Proofs.Constants.ValuationOrder
import ConstFlow.Proofs.Lattice.BoundedLattice
import Mathlib.Data.List.Nodup
import Mathlib.Data.List.Perm.Subperm

/-! # The lattice of abstract values

`meet` is the greatest lower bound of two values, as `join` is their least upper bound. With the
undefined value at the bottom and `nac` at the top the values form a bounded lattice, although
there are infinitely many of them, and three of them in a row are all that an ascent can have.
-/
namespace ConstFlow.Value

theorem meet_le_left (a b : Value) : a.meet b ≤ a := by
  rw [le_iff]
  cases a <;> cases b <;> simp [meet, em']

theorem meet_comm (a b : Value) : a.meet b = b.meet a := by
  cases a <;> cases b <;> simp [meet, eq_comm]
  split <;> simp_all

theorem meet_le_right (a b : Value) : a.meet b ≤ b := meet_comm b a ▸ meet_le_left b a

theorem le_meet {a b c : Value} (hb : a ≤ b) (hc : a ≤ c) : a ≤ b.meet c := by
  rw [le_iff] at hb hc ⊢
  rcases hb with rfl | rfl | rfl
  · exact Or.inl rfl
  · rcases hc with rfl | rfl | rfl
    · exact Or.inl rfl
    · cases a <;> simp [meet]
    · cases a <;> simp [meet]
  · cases c <;> simp_all [meet]

theorem isLUB_join (a b : Value) : IsLUB {a, b} (a.join b) := by
  constructor
  · rintro c (rfl | rfl)
    · exact le_join_left c b
    · exact le_join_right a c
  · exact fun u hu => join_le (hu (Or.inl rfl)) (hu (Or.inr rfl))

theorem isBoundedLattice : lattice.IsBoundedLattice where
  le_refl := le_refl
  le_trans a _ c hab hbc := (le_trans hab hbc : a ≤ c)
  le_antisymm _ _ hab hba := le_antisymm hab hba
  le_join_left := le_join_left
  le_join_right := le_join_right
  join_le _ _ _ := join_le
  meet_le_left := meet_le_left
  meet_le_right := meet_le_right
  le_meet _ _ _ := le_meet
  bottom_le := undefined_le
  le_top := le_nac

/-- The ranks in an ascent are distinct, and there are three ranks. -/
theorem length_le_three {chain : List Value} (h : chain.IsChain (· < ·)) : chain.length ≤ 3 := by
  have hascends : (chain.map rank).Pairwise (· < ·) := by
    rw [List.pairwise_map]
    refine h.pairwise.imp fun {a b} hab => ?_
    exact rank_lt_rank hab.le hab.ne
  have hranks : chain.map rank ⊆ List.range 3 := by
    intro k hk
    obtain ⟨a, _, rfl⟩ := List.mem_map.mp hk
    exact List.mem_range.mpr (Nat.lt_succ_of_le a.rank_le_two)
  have hlength := (hascends.nodup.subperm hranks).length_le
  rwa [List.length_map, List.length_range] at hlength

/-- Values are a bounded lattice in which no ascent has more than three of them. Where facts
merge, the values of a variable are joined, and so have their least upper bound. No samples speak
against the laws. -/
theorem bounded_lattice_of_height_three :
    lattice.IsBoundedLattice ∧ lattice.bottom = undefined ∧ lattice.top = nac ∧
    (∀ a b c : Value, (a.join b).join c = a.join (b.join c) ∧
      (a.meet b).meet c = a.meet (b.meet c)) ∧
    (∀ a b : Value, a.join b = b.join a ∧ a.meet b = b.meet a) ∧
    (∀ a : Value, a.join a = a ∧ a.meet a = a) ∧
    (∀ a b : Value, a.join (a.meet b) = a ∧ a.meet (a.join b) = a) ∧
    (∀ a b : Value, (a.le b ↔ a.join b = b) ∧ (a.le b ↔ a.meet b = a)) ∧
    (∀ chain : List Value, chain.IsChain (fun a b => a.le b ∧ a ≠ b) → chain.length ≤ 3) ∧
    (∀ (f t : Valuation) (x : Variable), IsLUB {t.get x, f.get x} ((f.mergeInto t).get x)) ∧
    ∀ (name : Value → String) (samples : List Value),
      LawSuite.bounded.check lattice name samples = .ok () := by
  have hlaw (l : LawInstance Value) : l.Law lattice := l.law_of_isBoundedLattice isBoundedLattice
  refine ⟨isBoundedLattice, rfl, rfl, ?_, ?_, ?_, ?_, ?_, ?_, ?_, ?_⟩
  · exact fun a b c => ⟨hlaw (.joinAssociative a b c), hlaw (.meetAssociative a b c)⟩
  · exact fun a b => ⟨join_comm a b, meet_comm a b⟩
  · exact fun a => ⟨hlaw (.joinIdempotent a), hlaw (.meetIdempotent a)⟩
  · exact fun a b => ⟨hlaw (.joinAbsorbs a b), hlaw (.meetAbsorbs a b)⟩
  · exact fun a b => ⟨hlaw (.orderAgreesWithJoin a b), hlaw (.orderAgreesWithMeet a b)⟩
  · intro chain hchain
    exact length_le_three (hchain.imp fun a b h => lt_of_le_of_ne h.1 h.2)
  · intro f t x
    rw [Valuation.get_mergeInto]
    exact isLUB_join (t.get x) (f.get x)
  · exact fun name samples => LawSuite.check_of_isBoundedLattice isBoundedLattice

/-- An ascent of full length, and samples that hold two constants. -/
theorem seven_on_the_way_up :
    [undefined, constant 7, nac].IsChain (fun a b => a.le b ∧ a ≠ b) ∧
    [undefined, constant 7, nac].length ≤ 3 ∧
    LawSuite.bounded.check lattice term [constant 7, constant (-7), constant 7] = .ok () := by
  obtain ⟨_, _, _, _, _, _, _, _, hheight, _, hcheck⟩ := bounded_lattice_of_height_three
  have hchain : [undefined, constant 7, nac].IsChain (fun a b => a.le b ∧ a ≠ b) := by decide
  exact ⟨hchain, hheight _ hchain, hcheck term _⟩

end ConstFlow.Value
