import ConstFlow.Collections.Table
import ConstFlow.Dataflow.Solution
import ConstFlow.Dataflow.Worklist

/-! # The worklist algorithm

A problem fixes a graph as facts see it: each node has sources, whose outputs are merged
into its input, and targets, which are visited again when its output changes. One node,
the origin, is never visited for its own sake and starts with the boundary fact as its
output. A visit takes the first node off the worklist, merges into its input, computes its
output and puts the targets in the worklist if that has changed. Visits are made until no
node waits, or until there would be more of them than a limit allows.
-/
namespace ConstFlow

structure Problem (F : Type) where
  origin : Nat
  seeds : List Nat
  sources : Nat → List Nat
  targets : Nat → List Nat
  boundary : F
  initial : F
  merge : F → F → F
  transfer : Nat → F → F → F × Bool

structure Visit (F : Type) where
  node : Nat
  input : F
  output : F
  changed : Bool

/-- How far a run has come. Visits are listed with the latest first. -/
structure Progress (F : Type) where
  inputs : Table F
  outputs : Table F
  worklist : Worklist
  visits : List (Visit F)

namespace Problem
variable {F : Type} (p : Problem F)

def start : Progress F where
  inputs := .const p.initial
  outputs := (Table.const p.initial).set p.origin p.boundary
  worklist := .ofList p.seeds
  visits := []

/-- The input of `n` after the outputs of its sources have arrived. -/
def gather (s : Progress F) (n : Nat) : F :=
  (p.sources n).foldl (fun target m => p.merge (s.outputs.get m) target) (s.inputs.get n)

def visit (s : Progress F) (n : Nat) : Visit F :=
  let input := p.gather s n
  let (output, changed) := p.transfer n input (s.outputs.get n)
  ⟨n, input, output, changed⟩

/-- The progress after visiting `n`, when `rest` is left of the worklist. -/
def advance (s : Progress F) (n : Nat) (rest : Worklist) : Progress F :=
  let v := p.visit s n
  { inputs := s.inputs.set n v.input
    outputs := s.outputs.set n v.output
    worklist := if v.changed then rest.extend (p.targets n) else rest
    visits := v :: s.visits }

/-- Takes nodes off the worklist and visits them, until none is left. A node that is taken off
counts as an iteration, and the first one beyond the limit is not visited but an error. What
stands beside the error is the progress before that node was taken off. -/
@[semireducible] def loop (limit iterations : Nat) (s : Progress F) :
    Progress F × Except SolveError Nat :=
  match s.worklist.pop? with
  | none => (s, .ok iterations)
  | some (n, rest) =>
    if iterations + 1 > limit then (s, .error (.fuelExhausted limit))
    else loop limit (iterations + 1) (p.advance s n rest)
termination_by limit - iterations

end Problem
end ConstFlow
