import ConstFlow.Flow.Graph

/-! # Analyses

An analysis says how facts of a type `F` travel through a flow graph: in which direction,
what holds at the end they start from, how facts that meet are merged, and what a
statement does to a fact. Nothing here asks the callbacks to be well behaved.
-/
namespace ConstFlow

/-- Name of an analysis, and the most visits that one of its runs may make. -/
structure Settings where
  id : String
  maxIterations : Nat := 100000
  deriving DecidableEq, Repr

inductive Direction where
  | forward
  | backward
  deriving DecidableEq, Repr

def Direction.name : Direction → String
  | forward => "forward"
  | backward => "backward"

structure Analysis (F : Type) where
  settings : Settings
  direction : Direction
  /-- The fact that holds where facts start: after the entry, or before the exit. -/
  boundary : FlowGraph → F
  /-- The fact that every other place starts with. -/
  initial : F
  /-- `merge fact target` is the target after a fact has arrived. -/
  merge : F → F → F
  /-- `transfer s input output` is the new output of `s`, and whether it counts as changed. -/
  transfer : Statement → F → F → F × Bool
  /-- What is worth telling about the transfer of a fact through a statement. -/
  remarks : Statement → F → List String := fun _ _ => []
  text : F → String

end ConstFlow
