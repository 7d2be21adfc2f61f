import ConstFlow.Dataflow.Solver
import ConstFlow.Program.VariableSet

/-! # Live variables

Backward. A variable is live where its value may still be read. A statement ends the life
of the variable that it assigns, and begins that of each variable that it reads.
-/
namespace ConstFlow.Liveness

/-- The variables that are live before a statement. -/
def effect (s : Statement) (after : VariableSet) : VariableSet :=
  let kept := match s.assigned? with
    | some x => after.erase x
    | none => after
  s.uses.foldl OrderedSet.insert kept

/-- The variables of `atExit` are live at the exit. -/
def analysis (settings : Settings) (atExit : VariableSet := .empty) : Analysis VariableSet where
  settings := settings
  direction := .backward
  boundary _ := atExit
  initial := .empty
  merge fact target := target.union fact
  transfer s after before := before.copyFrom (effect s after)
  text := VariableSet.text

end ConstFlow.Liveness
