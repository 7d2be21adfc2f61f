import ConstFlow.Collections.OrderedSet
import ConstFlow.Program.Variable

/-! # Sets of variables -/
namespace ConstFlow

abbrev VariableSet : Type := OrderedSet Variable

def VariableSet.text (s : VariableSet) : String := OrderedSet.render Variable.name s

end ConstFlow
