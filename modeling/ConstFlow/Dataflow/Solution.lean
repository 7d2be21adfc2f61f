import ConstFlow.Collections.Table
import ConstFlow.Flow.Graph

/-! # Solutions

The facts before and after every node of the graph that was solved.
-/
namespace ConstFlow

inductive SolveError where
  | fuelExhausted (limit : Nat)
  | missingFact (node : Nat)
  deriving DecidableEq, Repr

def SolveError.message : SolveError → String
  | fuelExhausted limit => s!"fixpoint not reached within {limit} iterations"
  | missingFact node => s!"no fact recorded for node NodeIndex({node})"

structure Solution (F : Type) where
  size : Nat
  before : Table F
  after : Table F
  /-- Number of visits that the solver made. -/
  iterations : Nat

namespace Solution
variable {F : Type}

/-- The fact before a node. -/
def inFact? (r : Solution F) (n : Nat) : Option F :=
  if n < r.size then some (r.before.get n) else none

/-- The fact after a node. -/
def outFact? (r : Solution F) (n : Nat) : Option F :=
  if n < r.size then some (r.after.get n) else none

def inFact (r : Solution F) (n : Nat) : Except SolveError F :=
  match r.inFact? n with
  | some f => .ok f
  | none => .error (.missingFact n)

def outFact (r : Solution F) (n : Nat) : Except SolveError F :=
  match r.outFact? n with
  | some f => .ok f
  | none => .error (.missingFact n)

/-- One line for each node of `g` that has facts. The graph need not be the one solved. -/
def text (showFact : F → String) (r : Solution F) (g : FlowGraph) : String :=
  "".intercalate (g.nodes.filterMap fun n => do
    let before ← r.inFact? n
    let after ← r.outFact? n
    return s!"{g.label n}: {showFact before} -> {showFact after}\n")

end Solution
end ConstFlow
