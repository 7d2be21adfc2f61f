import ConstFlow.Constants.Evaluation
import ConstFlow.Dataflow.Solver

/-! # Constant propagation

Forward, over the variables of integer-like types. A procedure's parameters may have any
value, and nothing else is defined at the entry. A definition of a variable that is
followed gives it the value of the right-hand side; stores to fields, to array elements
and to other variables are not seen.
-/
namespace ConstFlow

/-- The variable whose value a statement sets, and the expression that it is set to. -/
def Statement.intDefinition? (s : Statement) : Option (Variable × Expression) :=
  s.toDefinition?.bind fun d =>
    (d.place.toVariable?.filter Variable.holdsInt).map fun x => (x, d.value)

namespace ConstantPropagation

def settings : Settings := { id := "constprop" }

def boundary (g : FlowGraph) : Valuation :=
  .ofList ((g.procedure.params.filter Variable.holdsInt).map fun x => (x, .nac))

/-- The valuation after a statement. -/
def effect (s : Statement) (f : Valuation) : Valuation :=
  match s.intDefinition? with
  | some (x, e) => (f.update x (e.evaluate f)).1
  | none => f

def remarks (s : Statement) (f : Valuation) : List String :=
  match s.intDefinition? with
  | some (_, e) => e.remarks f
  | none => []

def analysis (settings : Settings := settings) : Analysis Valuation where
  settings := settings
  direction := .forward
  boundary := boundary
  initial := .empty
  merge := Valuation.mergeInto
  transfer s input output := output.copyFrom (effect s input)
  remarks := remarks
  text := Valuation.text

end ConstantPropagation
end ConstFlow
