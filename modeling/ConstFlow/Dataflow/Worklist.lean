import Std.Data.TreeSet

/-! # Worklists

A worklist holds the nodes that wait for a visit, first come first served. A set beside the queue
tells which nodes wait, so that a node is not put in again while it does.
-/
namespace ConstFlow

/-- A queue in which no node stands twice, and the set of the nodes that stand in it. -/
structure Worklist where
  queue : List Nat
  queued : Std.TreeSet Nat
  nodup : queue.Nodup
  inStep : ∀ n, n ∈ queued ↔ n ∈ queue

namespace Worklist

def empty : Worklist where
  queue := []
  queued := ∅
  nodup := .nil
  inStep _ := by simp

/-- Puts a node at the end of the queue, unless it waits already. -/
def push (w : Worklist) (n : Nat) : Worklist :=
  if h : n ∈ w.queued then w
  else
    { queue := w.queue ++ [n]
      queued := w.queued.insert n
      nodup := by
        have hn : n ∉ w.queue := fun hn => h ((w.inStep n).mpr hn)
        refine List.pairwise_append.mpr ⟨w.nodup, List.pairwise_singleton _ _, fun m hm k hk => ?_⟩
        rw [List.mem_singleton.mp hk]
        exact fun hmn => hn (hmn ▸ hm)
      inStep := fun m => by
        rw [Std.TreeSet.mem_insert, Std.LawfulEqCmp.compare_eq_iff_eq, w.inStep, List.mem_append,
          List.mem_singleton, or_comm, eq_comm] }

def extend (w : Worklist) (nodes : List Nat) : Worklist := nodes.foldl push w

def ofList (nodes : List Nat) : Worklist := empty.extend nodes

/-- Takes out the node that has waited longest. -/
def pop? : Worklist → Option (Nat × Worklist)
  | ⟨[], _, _, _⟩ => none
  | ⟨n :: rest, queued, nodup, inStep⟩ => some (n,
    { queue := rest
      queued := queued.erase n
      nodup := (List.nodup_cons.mp nodup).2
      inStep := fun m => by
        have hn := (List.nodup_cons.mp nodup).1
        rw [Std.TreeSet.mem_erase, Ne, Std.LawfulEqCmp.compare_eq_iff_eq, inStep, List.mem_cons]
        constructor
        · rintro ⟨hne, rfl | hm⟩
          · exact absurd rfl hne
          · exact hm
        · exact fun hm => ⟨fun h => hn (h ▸ hm), Or.inr hm⟩ })

theorem queue_push (w : Worklist) (n : Nat) :
    (w.push n).queue = if n ∈ w.queue then w.queue else w.queue ++ [n] := by
  unfold push
  by_cases h : n ∈ w.queued
  · rw [dif_pos h, if_pos ((w.inStep n).mp h)]
  · rw [dif_neg h, if_neg fun hn => h ((w.inStep n).mpr hn)]

/-- A pop takes the first node off the queue, if there is one. -/
theorem pop?_cases (w : Worklist) : w.pop? = none ∧ w.queue = [] ∨
    ∃ n rest, w.pop? = some (n, rest) ∧ w.queue = n :: rest.queue := by
  obtain ⟨queue, queued, nodup, inStep⟩ := w
  cases queue with
  | nil => exact Or.inl ⟨rfl, rfl⟩
  | cons n rest => exact Or.inr ⟨n, _, rfl, rfl⟩

end Worklist
end ConstFlow
