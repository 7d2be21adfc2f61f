/-! # Finite maps that remember insertion order

Keys are compared with `==`, which may identify distinct objects; the map keeps the
object that was inserted first. Overwriting keeps a key where it is, a new key goes
last, and erasing closes the gap. Two maps are `==` when they hold the same values
under the same keys, in whatever order.
-/
namespace ConstFlow

structure OrderedMap (K V : Type) [BEq K] where
  entries : List (K × V)
  distinct : entries.Pairwise fun a b => (a.1 == b.1) = false

namespace OrderedMap
variable {K V : Type} [BEq K]

/-- Overwrites the value under `k` in place, or appends a new entry. -/
def putEntry (k : K) (v : V) : List (K × V) → List (K × V)
  | [] => [(k, v)]
  | e :: rest => if e.1 == k then (e.1, v) :: rest else e :: putEntry k v rest

theorem key_mem_putEntry {k : K} {v : V} {l : List (K × V)} {e : K × V}
    (h : e ∈ putEntry k v l) : e.1 = k ∨ ∃ f ∈ l, f.1 = e.1 := by
  induction l with
  | nil => simp only [putEntry, List.mem_singleton] at h; exact Or.inl (by rw [h])
  | cons a rest ih =>
    unfold putEntry at h
    split at h
    · rcases List.mem_cons.mp h with rfl | h
      · exact Or.inr ⟨a, List.mem_cons_self, rfl⟩
      · exact Or.inr ⟨e, List.mem_cons_of_mem _ h, rfl⟩
    · rcases List.mem_cons.mp h with rfl | h
      · exact Or.inr ⟨e, List.mem_cons_self, rfl⟩
      · rcases ih h with hk | ⟨f, hf, hfe⟩
        · exact Or.inl hk
        · exact Or.inr ⟨f, List.mem_cons_of_mem _ hf, hfe⟩

theorem pairwise_putEntry {k : K} {v : V} {l : List (K × V)}
    (h : l.Pairwise fun a b => (a.1 == b.1) = false) :
    (putEntry k v l).Pairwise fun a b => (a.1 == b.1) = false := by
  induction l with
  | nil => exact List.pairwise_singleton _ _
  | cons a rest ih =>
    obtain ⟨ha, hrest⟩ := List.pairwise_cons.mp h
    unfold putEntry
    split
    · exact List.pairwise_cons.mpr ⟨ha, hrest⟩
    · rename_i hak
      refine List.pairwise_cons.mpr ⟨fun b hb => ?_, ih hrest⟩
      rcases key_mem_putEntry hb with hk | ⟨f, hf, hfb⟩
      · rw [hk]; exact Bool.eq_false_iff.mpr hak
      · rw [← hfb]; exact ha f hf

def empty : OrderedMap K V := ⟨[], .nil⟩

instance : Inhabited (OrderedMap K V) := ⟨empty⟩

def get? (m : OrderedMap K V) (k : K) : Option V :=
  (m.entries.find? fun e => e.1 == k).map (·.2)

def contains (m : OrderedMap K V) (k : K) : Bool := m.entries.any fun e => e.1 == k

def keys (m : OrderedMap K V) : List K := m.entries.map (·.1)

def size (m : OrderedMap K V) : Nat := m.entries.length

def isEmpty (m : OrderedMap K V) : Bool := m.entries.isEmpty

def insert (m : OrderedMap K V) (k : K) (v : V) : OrderedMap K V :=
  ⟨putEntry k v m.entries, pairwise_putEntry m.distinct⟩

def erase (m : OrderedMap K V) (k : K) : OrderedMap K V :=
  ⟨m.entries.filter fun e => !(e.1 == k), m.distinct.filter _⟩

/-- A repeated key keeps its first position and takes its last value. -/
def ofList (entries : List (K × V)) : OrderedMap K V :=
  entries.foldl (fun m e => m.insert e.1 e.2) empty

instance [BEq V] : BEq (OrderedMap K V) where
  beq m o := m.size == o.size && m.entries.all fun e => o.get? e.1 == some e.2

/-- Binds `k` to `v`, and tells whether the map changed. -/
def update [BEq V] (m : OrderedMap K V) (k : K) (v : V) : OrderedMap K V × Bool :=
  if m.get? k == some v then (m, false) else (m.insert k v, true)

/-- Removes `k`, and returns the value that it had. -/
def remove (m : OrderedMap K V) (k : K) : OrderedMap K V × Option V := (m.erase k, m.get? k)

/-- Replaces the map by `source`, and tells whether it changed. A map that is already
`==` to the source stays as it is, its order included. -/
def copyFrom [BEq V] (m source : OrderedMap K V) : OrderedMap K V × Bool :=
  if m == source then (m, false) else (source, true)

@[simp] theorem get?_empty (k : K) : (empty : OrderedMap K V).get? k = none := rfl

theorem find?_putEntry [EquivBEq K] (k x : K) (v : V) (l : List (K × V)) :
    ((putEntry k v l).find? fun e => e.1 == x).map (·.2) =
      if k == x then some v else (l.find? fun e => e.1 == x).map (·.2) := by
  induction l with
  | nil => by_cases h : k == x <;> simp [putEntry, h]
  | cons a rest ih =>
    unfold putEntry
    by_cases hak : a.1 == k
    · by_cases hkx : k == x
      · simp [hak, hkx, BEq.trans hak hkx]
      · have hax : (a.1 == x) = false := by
          rw [Bool.eq_false_iff]; exact fun h => hkx (BEq.trans (BEq.symm hak) h)
        simp [hak, hkx, hax]
    · rw [if_neg hak]
      by_cases hax : a.1 == x
      · have hkx : (k == x) = false := by
          rw [Bool.eq_false_iff]; exact fun h => hak (BEq.trans hax (BEq.symm h))
        simp [hax, hkx]
      · simp [hax, ih]

theorem get?_insert [EquivBEq K] (m : OrderedMap K V) (k x : K) (v : V) :
    (m.insert k v).get? x = if k == x then some v else m.get? x :=
  find?_putEntry k x v m.entries

theorem get?_erase [EquivBEq K] (m : OrderedMap K V) (k x : K) :
    (m.erase k).get? x = if k == x then none else m.get? x := by
  unfold get? erase
  simp only [List.find?_filter]
  by_cases h : k == x
  · have : (m.entries.find? fun e => !(e.1 == k) && e.1 == x) = none := by
      refine List.find?_eq_none.mpr fun e _ he => ?_
      simp only [Bool.and_eq_true, Bool.not_eq_true'] at he
      exact Bool.false_ne_true (he.1.symm.trans (BEq.trans he.2 (BEq.symm h)))
    simp [h, this]
  · have : (fun e : K × V => !(e.1 == k) && e.1 == x) = fun e => e.1 == x := by
      funext e
      by_cases hx : e.1 == x
      · have : (e.1 == k) = false := by
          rw [Bool.eq_false_iff]; exact fun hk => h (BEq.trans (BEq.symm hk) hx)
        simp [hx, this]
      · simp [hx]
    simp [h, this]

/-- Text of a map: entries in order, in braces. -/
def render (showKey : K → String) (showValue : V → String) (m : OrderedMap K V) : String :=
  "\x7b" ++ ", ".intercalate (m.entries.map fun e => showKey e.1 ++ ": " ++ showValue e.2) ++ "\x7d"

end OrderedMap
end ConstFlow
