import ConstFlow.Dataflow.Analysis
import ConstFlow.Dataflow.Problem

/-! # Solving an analysis over a flow graph

Forward, facts start after the entry and follow the arcs, and nodes are first visited in
ascending order. Backward, they start before the exit and follow the arcs in reverse, and
nodes are first visited in descending order. An attempt makes visits under a limit; it
succeeds when no node is left to visit.
-/
namespace ConstFlow

namespace Analysis
variable {F : Type} (a : Analysis F) (g : FlowGraph)

def problem : Problem F where
  origin := match a.direction with
    | .forward => g.entry
    | .backward => g.exit
  seeds := match a.direction with
    | .forward => g.nodes.filter (· != g.entry)
    | .backward => (g.nodes.filter (· != g.exit)).reverse
  sources := match a.direction with
    | .forward => g.preds
    | .backward => g.succs
  targets := match a.direction with
    | .forward => g.succs
    | .backward => g.preds
  boundary := a.boundary g
  initial := a.initial
  merge := a.merge
  transfer n := a.transfer (g.statement n)

/-- How far the visits under a limit come. -/
def attempt (limit : Nat) : Progress F := ((a.problem g).loop limit 0 (a.problem g).start).1

/-- What visits that have come to their end found out. -/
def conclude (s : Progress F) (iterations : Nat) : Solution F :=
  match a.direction with
  | .forward => ⟨g.size, s.inputs, s.outputs, iterations⟩
  | .backward => ⟨g.size, s.outputs, s.inputs, iterations⟩

def solveWithin (limit : Nat) : Except SolveError (Solution F) :=
  match (a.problem g).loop limit 0 (a.problem g).start with
  | (s, .ok iterations) => .ok (a.conclude g s iterations)
  | (_, .error e) => .error e

/-- Solves under the analysis' own limit. -/
def solve : Except SolveError (Solution F) := a.solveWithin g a.settings.maxIterations

end Analysis
end ConstFlow
