import ConstFlow.Dataflow.Solver
import ConstFlow.Program.VariableSet

/-! # Assigned variables

Forward. The variables that may have been assigned, beginning with the parameters.
-/
namespace ConstFlow.Assignment

/-- The variables that may have been assigned after a statement. -/
def effect (s : Statement) (before : VariableSet) : VariableSet :=
  match s.assigned? with
  | some x => before.insert x
  | none => before

def analysis (settings : Settings) : Analysis VariableSet where
  settings := settings
  direction := .forward
  boundary g := .ofList g.procedure.params
  initial := .empty
  merge fact target := target.union fact
  transfer s before after := after.copyFrom (effect s before)
  text := VariableSet.text

end ConstFlow.Assignment
