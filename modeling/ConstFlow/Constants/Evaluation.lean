import ConstFlow.Constants.Arithmetic
import ConstFlow.Constants.Valuation
import ConstFlow.Program.Expression

/-! # Evaluating expressions over abstract values

Literals, variables and binary terms are understood; any other expression may have any
value. A fault makes the value of one expression unknown, and is remarked upon.
-/
namespace ConstFlow

/-- A binary term has a value once both operands have one. -/
def Operator.foldValues (op : Operator) : Value → Value → Except EvalFault Value
  | .nac, _ | _, .nac => .ok .nac
  | .constant y, .constant z => (op.fold y z).map .constant
  | _, _ => .ok .undefined

namespace Expression

def evaluateFaulting (e : Expression) (f : Valuation) : Except EvalFault Value :=
  match e with
  | int v => .ok (.constant v)
  | var x => .ok (f.get x)
  | binary t => t.op.foldValues (f.get t.left) (f.get t.right)
  | long _ | neg _ | cast _ _ | field _ | element _ | call _ | alloc _ => .ok .nac

def evaluate (e : Expression) (f : Valuation) : Value :=
  match e.evaluateFaulting f with
  | .ok v => v
  | .error _ => .nac

/-- What evaluation has to say: the fault, if there is one. -/
def remarks (e : Expression) (f : Valuation) : List String :=
  match e.evaluateFaulting f with
  | .ok _ => []
  | .error fault => [s!"`{e.text}` evaluates to NAC: {fault.message}"]

end Expression
end ConstFlow
