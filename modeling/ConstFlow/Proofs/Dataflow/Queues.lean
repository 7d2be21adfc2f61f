import ConstFlow.Dataflow.Worklist
import Mathlib.Data.List.Nodup

/-! # The queue of a worklist

Which nodes go in and which comes out can be told from the queue alone. The set beside it answers
the question whether a node waits, and being in step with the queue it answers the same.
-/
namespace ConstFlow

/-- Puts nodes at the end of a queue, except those that stand in it already. -/
def enqueue (queue nodes : List ℕ) : List ℕ :=
  nodes.foldl (fun q n => if q.contains n then q else q ++ [n]) queue

theorem enqueue_cons (queue : List ℕ) (m : ℕ) (rest : List ℕ) :
    enqueue queue (m :: rest) = enqueue (if m ∈ queue then queue else queue ++ [m]) rest := by
  simp [enqueue]

theorem mem_enqueue {queue nodes : List ℕ} {n : ℕ} :
    n ∈ enqueue queue nodes ↔ n ∈ queue ∨ n ∈ nodes := by
  induction nodes generalizing queue with
  | nil => simp [enqueue]
  | cons m rest ih =>
    rw [enqueue_cons, ih, List.mem_cons]
    by_cases hm : m ∈ queue
    · rw [if_pos hm]
      constructor
      · exact Or.imp_right Or.inr
      · rintro (h | rfl | h)
        · exact Or.inl h
        · exact Or.inl hm
        · exact Or.inr h
    · simp [hm, or_assoc]

theorem length_enqueue_le (queue nodes : List ℕ) :
    (enqueue queue nodes).length ≤ queue.length + nodes.length := by
  induction nodes generalizing queue with
  | nil => simp [enqueue]
  | cons m rest ih =>
    rw [enqueue_cons, List.length_cons]
    by_cases hm : m ∈ queue
    · have h := ih queue
      rw [if_pos hm]
      omega
    · have h := ih (queue ++ [m])
      rw [List.length_append, List.length_singleton] at h
      rw [if_neg hm]
      omega

theorem exists_enqueue_eq_append (queue nodes : List ℕ) :
    ∃ extra, extra ⊆ nodes ∧ enqueue queue nodes = queue ++ extra := by
  induction nodes generalizing queue with
  | nil => exact ⟨[], List.Subset.refl _, (List.append_nil queue).symm⟩
  | cons m rest ih =>
    rw [enqueue_cons]
    by_cases hm : m ∈ queue
    · obtain ⟨extra, hsub, hextra⟩ := ih queue
      rw [if_pos hm]
      exact ⟨extra, List.subset_cons_of_subset m hsub, hextra⟩
    · obtain ⟨extra, hsub, hextra⟩ := ih (queue ++ [m])
      rw [if_neg hm]
      exact ⟨m :: extra, List.cons_subset_cons m hsub,
        by rw [hextra, List.append_assoc, List.singleton_append]⟩

theorem enqueue_of_nodup {queue nodes : List ℕ} (h : (queue ++ nodes).Nodup) :
    enqueue queue nodes = queue ++ nodes := by
  induction nodes generalizing queue with
  | nil => exact (List.append_nil queue).symm
  | cons m rest ih =>
    have hm : m ∉ queue := fun hm => List.disjoint_of_nodup_append h hm List.mem_cons_self
    rw [List.append_cons] at h ⊢
    rw [enqueue_cons, if_neg hm, ih h]

namespace Worklist

theorem queue_extend (w : Worklist) (nodes : List ℕ) :
    (w.extend nodes).queue = enqueue w.queue nodes := by
  induction nodes generalizing w with
  | nil => rfl
  | cons n rest ih => rw [enqueue_cons, ← queue_push, ← ih, extend, List.foldl_cons, extend]

theorem queue_ofList (nodes : List ℕ) : (ofList nodes).queue = enqueue [] nodes :=
  queue_extend empty nodes

end Worklist
end ConstFlow
