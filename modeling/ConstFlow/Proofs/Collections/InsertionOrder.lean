import ConstFlow.Proofs.Collections.SetEquality
import Mathlib.Data.List.Induction

/-! # Insertion order and change flags

Inserting many elements appends those that are missing, in the order in which they first come.
The keys of a map are a set, and what maps do with their keys is what sets do with elements.
Flags are computed from sizes, from lookups, or from comparisons that ignore the order. They are
exact all the same: an operation that reports no change has not touched the order either.
-/
namespace ConstFlow

theorem eraseDups_of_distinct {α : Type} [BEq α] [PartialEquivBEq α] {l : List α}
    (h : l.Pairwise fun a b => (a == b) = false) : l.eraseDups = l := by
  induction l with
  | nil => rfl
  | cons a rest ih =>
    obtain ⟨ha, hrest⟩ := List.pairwise_cons.mp h
    have hkept : rest.filter (fun b => !b == a) = rest := by
      refine List.filter_eq_self.mpr fun b hb => ?_
      rw [BEq.comm, ha b hb]
      rfl
    rw [List.eraseDups_cons, hkept, ih hrest]

/-- What an operation makes of `before`, with a flag that is set exactly if the two are not
`==`. Without the flag nothing at all is different. -/
structure ExactFlag {β : Type} [BEq β] (before : β) (r : β × Bool) : Prop where
  untouched : r.2 = false → r.1 = before
  changed : r.2 = true → (before == r.1) = false

theorem ExactFlag.changed_iff {β : Type} [BEq β] {before : β} {r : β × Bool}
    (h : ExactFlag before r) (hrefl : (before == before) = true) :
    r.2 = true ↔ (before == r.1) = false := by
  refine ⟨h.changed, fun hne => ?_⟩
  by_contra hflag
  rw [h.untouched (Bool.eq_false_iff.mpr hflag), hrefl] at hne
  cases hne

/-- Copying replaces what is not `==` to the source. -/
theorem exactFlag_copy {β : Type} [BEq β] (before source : β) :
    ExactFlag before (if before == source then (before, false) else (source, true)) := by
  split
  · exact ⟨fun _ => rfl, fun h => nomatch h⟩
  · rename_i hne
    exact ⟨fun h => (nomatch h), fun _ => Bool.eq_false_iff.mpr hne⟩

namespace OrderedSet
variable {α : Type} [BEq α] {s o : OrderedSet α} {a : α}

theorem ext_elems (h : s.elems = o.elems) : s = o := by
  cases s
  cases o
  cases h
  rfl

theorem insert_of_contains (h : s.contains a = true) : s.insert a = s :=
  ext_elems (by rw [elems_insert, if_pos h])

theorem erase_of_not_contains (h : s.contains a = false) : s.erase a = s := by
  refine ext_elems (List.filter_eq_self.mpr fun b hb => ?_)
  rw [Bool.not_eq_true', Bool.eq_false_iff]
  exact List.any_eq_false.mp h b hb

variable [EquivBEq α]

/-- Missing elements are appended where they come first. -/
theorem elems_foldl_insert (l : List α) (s : OrderedSet α) :
    (l.foldl insert s).elems = s.elems ++ (l.filter fun a => !s.contains a).eraseDups := by
  induction l generalizing s with
  | nil => simp
  | cons a rest ih =>
    rw [List.foldl_cons, ih]
    cases ha : s.contains a with
    | true => rw [insert_of_contains ha, List.filter_cons_of_neg (by simp [ha])]
    | false =>
      have hleft : (fun b => !(s.insert a).contains b) =
          fun b => (!b == a) && !s.contains b := by
        funext b
        rw [contains_insert, Bool.not_or, BEq.comm]
      rw [elems_insert, ha, hleft, List.filter_cons_of_pos (by simp [ha]), List.eraseDups_cons,
        List.filter_filter]
      simp

theorem elems_ofList (l : List α) : (ofList l).elems = l.eraseDups := by
  have hall : l.filter (fun a => !(empty : OrderedSet α).contains a) = l :=
    List.filter_eq_self.mpr fun _ _ => rfl
  rw [ofList, elems_foldl_insert, hall]
  rfl

theorem contains_ofList (l : List α) (x : α) : (ofList l).contains x = l.any (· == x) := by
  rw [ofList, contains_foldl_insert]
  rfl

theorem elems_union (s o : OrderedSet α) :
    (s.union o).elems = s.elems ++ o.elems.filter fun a => !s.contains a := by
  rw [union, elems_foldl_insert, eraseDups_of_distinct (o.distinct.filter _)]

/-- A union that is no larger has nothing to append. -/
theorem union_eq_self (h : (s.union o).size = s.size) : s.union o = s := by
  unfold size at h
  rw [elems_union, List.length_append] at h
  have hnone : o.elems.filter (fun a => !s.contains a) = [] :=
    List.length_eq_zero_iff.mp (Nat.add_left_cancel h)
  exact ext_elems (by rw [elems_union, hnone, List.append_nil])

theorem beq_self (s : OrderedSet α) : (s == s) = true := (beq_iff_contains s s).mpr fun _ => rfl

theorem contains_copyFrom (s source : OrderedSet α) (x : α) :
    (s.copyFrom source).1.contains x = source.contains x := by
  unfold copyFrom
  split
  · rename_i h
    exact (beq_iff_contains s source).mp h x
  · rfl

theorem beq_eq_false_of_contains {x : α} (h : s.contains x ≠ o.contains x) : (s == o) = false :=
  Bool.eq_false_iff.mpr fun hbeq => h ((beq_iff_contains s o).mp hbeq x)

theorem exactFlag_add (s : OrderedSet α) (a : α) : ExactFlag s (s.add a) where
  untouched h := insert_of_contains (Bool.not_eq_eq_eq_not.mp h)
  changed h := by
    have ha : s.contains a = false := Bool.not_eq_eq_eq_not.mp h
    refine beq_eq_false_of_contains (x := a) ?_
    change s.contains a ≠ (s.insert a).contains a
    rw [contains_insert, BEq.rfl, ha]
    exact Bool.noConfusion

theorem exactFlag_remove (s : OrderedSet α) (a : α) : ExactFlag s (s.remove a) where
  untouched h := erase_of_not_contains h
  changed h := by
    have ha : s.contains a = true := h
    refine beq_eq_false_of_contains (x := a) ?_
    change s.contains a ≠ (s.erase a).contains a
    rw [contains_erase, BEq.rfl, ha]
    exact Bool.noConfusion

/-- The flag of a union is told from the sizes. -/
theorem exactFlag_unionWith (s o : OrderedSet α) : ExactFlag s (s.unionWith o) where
  untouched h := union_eq_self (bne_eq_false_iff_eq.mp h)
  changed h := by
    have hsize : (s.union o).size ≠ s.size := bne_iff_ne.mp h
    refine Bool.eq_false_iff.mpr fun hbeq => hsize ?_
    have hparts : (s.size == (s.union o).size && s.elems.all (s.union o).contains) = true := hbeq
    exact (beq_iff_eq.mp (Bool.and_eq_true_iff.mp hparts).1).symm

end OrderedSet

namespace OrderedMap
variable {K V : Type} [BEq K] {m o : OrderedMap K V} {k : K}

/-- The set of the keys, in their order. -/
def keySet (m : OrderedMap K V) : OrderedSet K := ⟨m.keys, List.pairwise_map.mpr m.distinct⟩

theorem contains_keySet (m : OrderedMap K V) (k : K) :
    m.keySet.contains k = (m.get? k).isSome := by
  rw [Bool.eq_iff_iff]
  simp [OrderedSet.contains, keySet, keys, get?]

theorem keys_putEntry (k : K) (v : V) (l : List (K × V)) :
    (putEntry k v l).map (·.1) =
      if (l.map (·.1)).any (· == k) then l.map (·.1) else l.map (·.1) ++ [k] := by
  induction l with
  | nil => rfl
  | cons e rest ih =>
    unfold putEntry
    cases he : e.1 == k with
    | true => simp [he]
    | false =>
      rw [if_neg Bool.false_ne_true, List.map_cons, List.map_cons, List.any_cons, he, ih,
        Bool.false_or, List.cons_append, ← apply_ite (e.1 :: ·)]

theorem keySet_insert (m : OrderedMap K V) (k : K) (v : V) :
    (m.insert k v).keySet = m.keySet.insert k := by
  refine OrderedSet.ext_elems ?_
  rw [OrderedSet.elems_insert]
  exact keys_putEntry k v m.entries

theorem keySet_erase (m : OrderedMap K V) (k : K) : (m.erase k).keySet = m.keySet.erase k := by
  refine OrderedSet.ext_elems ?_
  change _ = (m.entries.map (·.1)).filter fun b => !(b == k)
  rw [List.filter_map]
  rfl

theorem keySet_ofList (entries : List (K × V)) :
    (ofList entries).keySet = .ofList (entries.map (·.1)) := by
  unfold ofList OrderedSet.ofList
  rw [List.foldl_map]
  exact (List.foldl_hom keySet fun m e => (keySet_insert m e.1 e.2).symm).symm

theorem ext_entries (h : m.entries = o.entries) : m = o := by
  cases m
  cases o
  cases h
  rfl

theorem erase_of_get?_eq_none (h : m.get? k = none) : m.erase k = m := by
  have hnone := List.find?_eq_none.mp (Option.map_eq_none_iff.mp h)
  refine ext_entries (List.filter_eq_self.mpr fun e he => ?_)
  rw [Bool.not_eq_true', Bool.eq_false_iff]
  exact hnone e he

section Lookup
variable [EquivBEq K]

/-- Of repeated keys the last value counts. -/
theorem get?_ofList (entries : List (K × V)) (k : K) :
    (ofList entries).get? k = (entries.reverse.find? fun e => e.1 == k).map (·.2) := by
  induction entries using List.reverseRecOn with
  | nil => rfl
  | append_singleton entries e ih =>
    rw [ofList, List.foldl_concat, get?_insert, List.reverse_concat, List.find?_cons]
    cases e.1 == k with
    | true => rfl
    | false => exact ih

variable [BEq V] [EquivBEq V]

omit [EquivBEq K] [EquivBEq V] in
theorem update_changed_iff (m : OrderedMap K V) (k : K) (v : V) :
    (m.update k v).2 = true ↔ ¬(m.get? k == some v) = true := by
  unfold update
  split
  · rename_i h
    simp [h]
  · rename_i h
    simp [h]

omit [EquivBEq K] [EquivBEq V] in
theorem key_mem_update {m : OrderedMap K V} {k : K} {v : V} {e : K × V}
    (he : e ∈ (m.update k v).1.entries) : e.1 = k ∨ ∃ d ∈ m.entries, d.1 = e.1 := by
  unfold update at he
  split at he
  · exact Or.inr ⟨e, he, rfl⟩
  · exact key_mem_putEntry he

theorem exactFlag_update (m : OrderedMap K V) (k : K) (v : V) : ExactFlag m (m.update k v) := by
  unfold update
  split
  · exact ⟨fun _ => rfl, fun h => nomatch h⟩
  · rename_i hne
    refine ⟨fun h => (nomatch h), fun _ => Bool.eq_false_iff.mpr fun hbeq => hne ?_⟩
    have hk := (beq_iff_sameContent _ _).mp hbeq k
    rwa [get?_insert, if_pos BEq.rfl] at hk

theorem beq_self (m : OrderedMap K V) : (m == m) = true :=
  (beq_iff_sameContent m m).mpr (.refl _)

/-- An equal value that is there stays. -/
theorem sameContent_update (m : OrderedMap K V) (k : K) (v : V) :
    SameContent (m.update k v).1.get? fun x => if k == x then some v else m.get? x := by
  intro x
  unfold update
  split
  · rename_i h
    change (m.get? x == if k == x then some v else m.get? x) = true
    split
    · rename_i hkx
      rw [← m.get?_congr hkx, h]
    · exact equivBEq_option.rfl
  · change ((m.insert k v).get? x == if k == x then some v else m.get? x) = true
    rw [get?_insert]
    exact equivBEq_option.rfl

theorem sameContent_copyFrom (m source : OrderedMap K V) :
    SameContent (m.copyFrom source).1.get? source.get? := by
  unfold copyFrom
  split
  · rename_i h
    exact (beq_iff_sameContent m source).mp h
  · exact .refl _

end Lookup

theorem keySet_update [BEq V] (m : OrderedMap K V) (k : K) (v : V) :
    (m.update k v).1.keySet = m.keySet.insert k := by
  unfold update
  split
  · rename_i h
    have hk : m.keySet.contains k = true := by rw [contains_keySet, isSome_eq_of_beq h]; rfl
    exact (OrderedSet.insert_of_contains hk).symm
  · exact keySet_insert m k v

end OrderedMap
end ConstFlow
