import ConstFlow.Collections.OrderedMap
import Mathlib.Data.List.Perm.Subperm

/-! # Equality of insertion-ordered maps

Maps compare equal by size and by lookup of one side's entries in the other. Distinct
keys make that test symmetric, so it decides agreement of all lookups.
-/
namespace ConstFlow

section Content
variable {K V : Type} [BEq V]

theorem isSome_eq_of_beq {a b : Option V} (h : (a == b) = true) : a.isSome = b.isSome := by
  match a, b with
  | none, none => rfl
  | some v, some w => rfl
  | none, some w => cases h
  | some v, none => cases h

/-- Values that may be missing compare as the values do. -/
theorem equivBEq_option [EquivBEq V] : EquivBEq (Option V) where
  rfl {a} := by
    match a with
    | none => rfl
    | some v => exact BEq.refl v
  symm {a b} h := by
    match a, b with
    | none, none => rfl
    | some v, some w => exact BEq.symm (α := V) h
    | none, some w => cases h
    | some v, none => cases h
  trans {a b c} hab hbc := by
    match a, b, c with
    | none, none, _ => exact hbc
    | some u, some v, some w => exact BEq.trans (α := V) hab hbc
    | none, some v, _ => cases hab
    | some u, none, _ => cases hab
    | some u, some v, none => cases hbc

/-- The same values, or none, under all keys. -/
def SameContent (c d : K → Option V) : Prop := ∀ k, (c k == d k) = true

variable [EquivBEq V] {b c d : K → Option V}

theorem SameContent.refl (c : K → Option V) : SameContent c c :=
  fun _ => equivBEq_option.rfl

theorem SameContent.symm (h : SameContent c d) : SameContent d c :=
  fun k => equivBEq_option.symm (h k)

theorem SameContent.trans (hbc : SameContent b c) (hcd : SameContent c d) : SameContent b d :=
  fun k => equivBEq_option.trans (hbc k) (hcd k)

end Content

namespace OrderedMap
variable {K V : Type} [BEq K] [EquivBEq K]

theorem get?_congr (m : OrderedMap K V) {j k : K} (h : (j == k) = true) : m.get? j = m.get? k := by
  have hp : (fun e : K × V => e.1 == j) = fun e => e.1 == k := funext fun e => BEq.congr_right h
  simp only [get?, hp]

theorem find?_entry {l : List (K × V)} (hl : l.Pairwise fun a b => (a.1 == b.1) = false)
    {e : K × V} (he : e ∈ l) : l.find? (fun f => f.1 == e.1) = some e := by
  induction l with
  | nil => simp at he
  | cons a rest ih =>
    obtain ⟨ha, hrest⟩ := List.pairwise_cons.mp hl
    rcases List.mem_cons.mp he with rfl | he
    · simp
    · simp [ha e he, ih hrest he]

/-- An entry is what its own key looks up. -/
theorem get?_of_mem {m : OrderedMap K V} {e : K × V} (he : e ∈ m.entries) :
    m.get? e.1 = some e.2 := by
  simp [get?, find?_entry m.distinct he]

omit [EquivBEq K] in
theorem exists_entry {m : OrderedMap K V} {k : K} {v : V} (h : m.get? k = some v) :
    ∃ e ∈ m.entries, (e.1 == k) = true ∧ e.2 = v := by
  obtain ⟨e, he, rfl⟩ := Option.map_eq_some_iff.mp h
  exact ⟨e, List.mem_of_find?_eq_some he, by simpa using List.find?_some he, rfl⟩

variable [BEq V]

omit [EquivBEq K] in
theorem exists_entry_beq {m : OrderedMap K V} {k : K} {v : V} (h : (m.get? k == some v) = true) :
    ∃ e ∈ m.entries, (e.1 == k) = true ∧ (e.2 == v) = true := by
  cases hk : m.get? k with
  | none =>
    rw [hk] at h
    cases h
  | some w =>
    obtain ⟨e, he, hek, rfl⟩ := exists_entry hk
    rw [hk] at h
    exact ⟨e, he, hek, h⟩

/-- Keys of `m` that are found in `o` have entries of their own there. -/
theorem exists_entries_of_found {m o : OrderedMap K V}
    (hfound : ∀ e ∈ m.entries, (o.get? e.1 == some e.2) = true) :
    ∃ l : List (K × V), l.Subperm o.entries ∧ l.length = m.size ∧
      ∀ f ∈ l, ∃ e ∈ m.entries, (f.1 == e.1) = true ∧ (f.2 == e.2) = true := by
  choose image hmem hkey hvalue using fun e he => exists_entry_beq (hfound e he)
  have hnodup : (m.entries.pmap image fun _ he => he).Nodup := by
    refine List.Pairwise.pmap m.distinct _ fun a ha b hb hab heq => ?_
    have h := BEq.trans (BEq.symm (hkey a ha)) (heq ▸ hkey b hb)
    simp [hab] at h
  have hsub : (m.entries.pmap image fun _ he => he) ⊆ o.entries := by
    intro f hf
    obtain ⟨e, he, rfl⟩ := List.mem_pmap.mp hf
    exact hmem e he
  refine ⟨_, hnodup.subperm hsub, by simp [size], ?_⟩
  intro f hf
  obtain ⟨e, he, rfl⟩ := List.mem_pmap.mp hf
  exact ⟨e, he, hkey e he, hvalue e he⟩

theorem size_le_of_found {m o : OrderedMap K V}
    (hfound : ∀ e ∈ m.entries, (o.get? e.1 == some e.2) = true) : m.size ≤ o.size := by
  obtain ⟨l, hl, hlen, _⟩ := exists_entries_of_found hfound
  rw [← hlen]
  exact hl.length_le

omit [EquivBEq K] in
theorem beq_eq_true_iff (m o : OrderedMap K V) : (m == o) = true ↔
    m.size = o.size ∧ ∀ e ∈ m.entries, (o.get? e.1 == some e.2) = true := by
  change (m.size == o.size && m.entries.all fun e => o.get? e.1 == some e.2) = true ↔ _
  rw [Bool.and_eq_true, beq_iff_eq, List.all_eq_true]

section Equivalence
variable [EquivBEq V]

/-- A map in which all of a map no smaller is found has no further keys. -/
theorem get?_of_found {m o : OrderedMap K V} (hsize : o.size ≤ m.size)
    (hfound : ∀ e ∈ m.entries, (o.get? e.1 == some e.2) = true) {k : K} {v : V}
    (hk : o.get? k = some v) : (m.get? k == some v) = true := by
  obtain ⟨l, hl, hlen, hl'⟩ := exists_entries_of_found hfound
  have hperm := hl.perm_of_length_le (hlen ▸ hsize)
  obtain ⟨f, hf, hfk, rfl⟩ := exists_entry hk
  obtain ⟨e, he, hfe, hv⟩ := hl' f (hperm.mem_iff.mpr hf)
  rw [← m.get?_congr (BEq.trans (BEq.symm hfe) hfk), get?_of_mem he]
  exact BEq.symm (α := V) hv

/-- Equal maps have the same content, up to the equality of values. -/
theorem beq_iff_sameContent (m o : OrderedMap K V) :
    (m == o) = true ↔ SameContent m.get? o.get? := by
  rw [beq_eq_true_iff]
  constructor
  · rintro ⟨hsize, hfound⟩ k
    cases ho : o.get? k with
    | some v => exact get?_of_found (Nat.le_of_eq hsize.symm) hfound ho
    | none =>
      cases hm : m.get? k with
      | none => rfl
      | some v =>
        obtain ⟨e, he, hek, rfl⟩ := exists_entry hm
        have hentry := hfound e he
        rw [o.get?_congr hek, ho] at hentry
        cases hentry
  · intro h
    have hom : ∀ e ∈ o.entries, (m.get? e.1 == some e.2) = true :=
      fun e he => get?_of_mem he ▸ h e.1
    have hmo : ∀ e ∈ m.entries, (o.get? e.1 == some e.2) = true :=
      fun e he => get?_of_mem he ▸ h.symm e.1
    exact ⟨Nat.le_antisymm (size_le_of_found hmo) (size_le_of_found hom), hmo⟩

end Equivalence

/-- If values are equal only to themselves, equal maps give the same one, or none, under every
key. -/
theorem beq_iff_get? [LawfulBEq V] (m o : OrderedMap K V) :
    (m == o) = true ↔ ∀ k, m.get? k = o.get? k :=
  (beq_iff_sameContent m o).trans (forall_congr' fun _ => beq_iff_eq)

end OrderedMap
end ConstFlow
