import ConstFlow.Collections.OrderedMap
import ConstFlow.Constants.Value
import ConstFlow.Program.Variable

/-! # Valuations

A valuation gives every variable a value. The undefined value is never stored, so two
valuations are `==` exactly when they give the same values.
-/
namespace ConstFlow

structure Valuation where
  map : OrderedMap Variable Value
  defined : ∀ e ∈ map.entries, e.2 ≠ .undefined

namespace Valuation

def empty : Valuation := ⟨.empty, fun _ h => nomatch h⟩

instance : Inhabited Valuation := ⟨empty⟩

instance : BEq Valuation := ⟨fun f g => f.map == g.map⟩

def get (f : Valuation) (x : Variable) : Value := (f.map.get? x).getD .undefined

/-- The variables that are not undefined with their values, in insertion order. -/
def entries (f : Valuation) : List (Variable × Value) := f.map.entries

def size (f : Valuation) : Nat := f.map.size

def isEmpty (f : Valuation) : Bool := f.map.isEmpty

theorem ne_undefined_of_mem_putEntry {x : Variable} {v : Value} {l : List (Variable × Value)}
    (hl : ∀ e ∈ l, e.2 ≠ .undefined) (hv : v ≠ .undefined) :
    ∀ e ∈ OrderedMap.putEntry x v l, e.2 ≠ .undefined := by
  induction l with
  | nil => intro e he; rw [List.mem_singleton.mp he]; exact hv
  | cons a rest ih =>
    have hrest := ih fun e he => hl e (List.mem_cons_of_mem _ he)
    intro e he
    unfold OrderedMap.putEntry at he
    split at he
    · rcases List.mem_cons.mp he with rfl | he
      · exact hv
      · exact hl e (List.mem_cons_of_mem _ he)
    · rcases List.mem_cons.mp he with rfl | he
      · exact hl e List.mem_cons_self
      · exact hrest e he

theorem defined_remove (f : Valuation) (x : Variable) :
    ∀ e ∈ (f.map.remove x).1.entries, e.2 ≠ .undefined :=
  fun e he => f.defined e (List.mem_filter.mp he).1

theorem defined_update (f : Valuation) (x : Variable) {v : Value} (hv : v ≠ .undefined) :
    ∀ e ∈ (f.map.update x v).1.entries, e.2 ≠ .undefined := by
  unfold OrderedMap.update
  split
  · exact f.defined
  · exact ne_undefined_of_mem_putEntry f.defined hv

/-- Gives `x` the value `v`, and tells whether the valuation changed. The undefined value removes
the entry of `x`. -/
def update (f : Valuation) (x : Variable) (v : Value) : Valuation × Bool :=
  if h : v = .undefined then (⟨(f.map.remove x).1, f.defined_remove x⟩, (f.map.remove x).2.isSome)
  else (⟨(f.map.update x v).1, f.defined_update x h⟩, (f.map.update x v).2)

/-- Replaces the valuation by `source`, and tells whether it changed. -/
def copyFrom (f source : Valuation) : Valuation × Bool :=
  if f == source then (f, false) else (source, true)

def ofList (entries : List (Variable × Value)) : Valuation :=
  entries.foldl (fun f e => (f.update e.1 e.2).1) empty

/-- Raises every value of `target` as far as that of `f`. -/
def mergeInto (f target : Valuation) : Valuation :=
  f.entries.foldl (fun t e => (t.update e.1 ((t.get e.1).join e.2)).1) target

def sortedEntries (f : Valuation) : List (Variable × Value) :=
  f.entries.mergeSort fun a b => a.1.id ≤ b.1.id

/-- Variables in order of declaration, with their values. -/
def text (f : Valuation) : String :=
  "\x7b" ++ ", ".intercalate (f.sortedEntries.map fun e => s!"{e.1.name}={e.2.text}") ++ "\x7d"

end Valuation
end ConstFlow
