import ConstFlow.Program.Operator
import ConstFlow.Program.Variable

/-! # Expressions in three-address form

Operands are variables, so an expression has one operation at most. Equality compares
variables by number.
-/
namespace ConstFlow

structure BinaryTerm where
  left : Variable
  right : Variable
  op : Operator
  deriving BEq, Repr

/-- The field of an object, or a static field when there is no base. -/
structure FieldRef where
  base : Option Variable
  field : String
  deriving BEq, Repr

structure ElementRef where
  base : Variable
  index : Variable
  deriving BEq, Repr

structure Call where
  method : String
  receiver : Option Variable
  args : List Variable
  deriving BEq, Repr

inductive Expression where
  | int (value : Int32)
  | long (value : Int64)
  | var (x : Variable)
  | binary (term : BinaryTerm)
  | neg (x : Variable)
  | cast (value : Variable) (type : DataType)
  | field (ref : FieldRef)
  | element (ref : ElementRef)
  | call (call : Call)
  | alloc (type : DataType)
  deriving BEq, Repr

def BinaryTerm.text (t : BinaryTerm) : String := s!"{t.left.name} {t.op.symbol} {t.right.name}"

def BinaryTerm.uses (t : BinaryTerm) : List Variable := [t.left, t.right]

def FieldRef.text (r : FieldRef) : String :=
  match r.base with
  | some x => s!"{x.name}.{r.field}"
  | none => r.field

def FieldRef.uses (r : FieldRef) : List Variable := r.base.toList

def ElementRef.text (r : ElementRef) : String := s!"{r.base.name}[{r.index.name}]"

def ElementRef.uses (r : ElementRef) : List Variable := [r.base, r.index]

def Call.text (c : Call) : String :=
  let callee := match c.receiver with
    | some x => s!"{x.name}.{c.method}"
    | none => c.method
  callee ++ "(" ++ ", ".intercalate (c.args.map Variable.name) ++ ")"

def Call.uses (c : Call) : List Variable := c.receiver.toList ++ c.args

namespace Expression

def text : Expression → String
  | int v => toString v.toInt
  | long v => s!"{v.toInt}L"
  | var x => x.name
  | binary t => t.text
  | neg x => s!"-{x.name}"
  | cast x type => s!"({type.text}) {x.name}"
  | field r => r.text
  | element r => r.text
  | call c => c.text
  | alloc type => s!"new {type.text}"

/-- The variables that evaluation reads, in order, repeats kept. -/
def uses : Expression → List Variable
  | int _ | long _ | alloc _ => []
  | var x | neg x | cast x _ => [x]
  | binary t => t.uses
  | field r => r.uses
  | element r => r.uses
  | call c => c.uses

end Expression
end ConstFlow
