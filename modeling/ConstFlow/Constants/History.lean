import ConstFlow.Collections.History
import ConstFlow.Constants.Propagation

/-! # Histories of valuations

Valuations held in named registers, empty at first, and the steps that change them.
-/
namespace ConstFlow

inductive ValuationStep where
  | collect (entries : List (Variable × Value))
  | update (x : Variable) (v : Value)
  | copyFrom (source : String)
  | clone (source : String)
  | mergeFrom (source : String)
  | transfer (s : Statement) (source : String)
  deriving Repr

namespace ValuationStep

/-- The new content of a register that holds `f`. -/
def result (rs : Registers Valuation) (f : Valuation) :
    ValuationStep → Valuation × StepReply Value
  | collect entries => (.ofList entries, .done)
  | update x v =>
    let (g, flag) := f.update x v
    (g, .changed flag)
  | copyFrom source =>
    let (g, flag) := f.copyFrom (rs source)
    (g, .changed flag)
  | clone source => (rs source, .done)
  | mergeFrom source => ((rs source).mergeInto f, .done)
  | transfer s source =>
    let (g, flag) := ConstantPropagation.analysis.transfer s (rs source) f
    (g, .changed flag)

def perform (rs : Registers Valuation) (name : String) (step : ValuationStep) :
    Registers Valuation × StepReply Value :=
  let (f, reply) := step.result rs (rs name)
  (rs.set name f, reply)

end ValuationStep
end ConstFlow
