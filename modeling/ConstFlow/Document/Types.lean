import ConstFlow.Constants.Value
import ConstFlow.Dataflow.Analysis
import ConstFlow.Document.Tree
import ConstFlow.Program.Statement

/-! # Written forms

How values, operators, types, variables, expressions, statements and settings are written
as documents.
-/
namespace ConstFlow
open Document

instance : Documented Value where
  write
    | .undefined => .text "Undef"
    | .constant c => caseOf "Constant" (write c)
    | .nac => .text "Nac"
  read d :=
    match d.case? with
    | some ("Constant", some c) => (read c).map .constant
    | _ => d.nameIn? [("Undef", .undefined), ("Nac", .nac)]

def Arithmetic.names : List (String × Arithmetic) :=
  [("Add", .add), ("Sub", .sub), ("Mul", .mul), ("Div", .div), ("Rem", .rem)]

def Comparison.names : List (String × Comparison) :=
  [("Eq", .eq), ("Ne", .ne), ("Lt", .lt), ("Gt", .gt), ("Le", .le), ("Ge", .ge)]

def Shift.names : List (String × Shift) :=
  [("Shl", .left), ("Shr", .right), ("Ushr", .unsignedRight)]

def Bitwise.names : List (String × Bitwise) := [("Or", .or), ("And", .and), ("Xor", .xor)]

def Primitive.names : List (String × Primitive) :=
  [("Byte", .byte), ("Short", .short), ("Int", .int), ("Char", .char), ("Boolean", .boolean),
    ("Long", .long), ("Float", .float), ("Double", .double)]

/-- Writes a case without content as its name. -/
def Document.nameFrom {α : Type} [BEq α] (names : List (String × α)) (a : α) : Document :=
  .text ((names.find? fun e => e.2 == a).elim "" (·.1))

instance : Documented Arithmetic := ⟨nameFrom Arithmetic.names, nameIn? Arithmetic.names⟩

instance : Documented Comparison := ⟨nameFrom Comparison.names, nameIn? Comparison.names⟩

instance : Documented Shift := ⟨nameFrom Shift.names, nameIn? Shift.names⟩

instance : Documented Bitwise := ⟨nameFrom Bitwise.names, nameIn? Bitwise.names⟩

instance : Documented Primitive := ⟨nameFrom Primitive.names, nameIn? Primitive.names⟩

instance : Documented Operator where
  write
    | .arithmetic op => caseOf "Arithmetic" (write op)
    | .comparison op => caseOf "Condition" (write op)
    | .shift op => caseOf "Shift" (write op)
    | .bitwise op => caseOf "Bitwise" (write op)
  read d :=
    match d.case? with
    | some ("Arithmetic", some c) => (read c).map .arithmetic
    | some ("Condition", some c) => (read c).map .comparison
    | some ("Shift", some c) => (read c).map .shift
    | some ("Bitwise", some c) => (read c).map .bitwise
    | _ => none

def DataType.toDocument : DataType → Document
  | primitive p => caseOf "Primitive" (write p)
  | object name => caseOf "Class" (write name)
  | array elem => caseOf "Array" elem.toDocument
  | null => .text "Null"

def DataType.ofDocument? : Document → Option DataType
  | .record [("Primitive", c)] => (read c).map primitive
  | .record [("Class", c)] => (read c).map object
  | .record [("Array", c)] => (ofDocument? c).map array
  | d => d.nameIn? [("Null", null)]

instance : Documented DataType := ⟨DataType.toDocument, DataType.ofDocument?⟩

instance : Documented Label where
  write l := write l.index
  read d := (read d).map Label.mk

instance : Documented Variable where
  write x := .record [("id", write x.id), ("name", write x.name), ("ty", write x.type)]
  read d := do
    let [some id, some name, some type] ←
      d.fields [("id", .refused), ("name", .refused), ("ty", .refused)] | none
    return ⟨← read id, ← read name, ← read type⟩

instance : Documented BinaryTerm where
  write t := .record [("op1", write t.left), ("op2", write t.right), ("op", write t.op)]
  read d := do
    let [some left, some right, some op] ←
      d.fields [("op1", .refused), ("op2", .refused), ("op", .refused)] | none
    return ⟨← read left, ← read right, ← read op⟩

instance : Documented FieldRef where
  write r := .record [("base", write r.base), ("field", write r.field)]
  read d := do
    let [some base, some field] ← d.fields [("base", .null), ("field", .refused)] | none
    return ⟨← read base, ← read field⟩

instance : Documented ElementRef where
  write r := .record [("base", write r.base), ("index", write r.index)]
  read d := do
    let [some base, some index] ← d.fields [("base", .refused), ("index", .refused)] | none
    return ⟨← read base, ← read index⟩

instance : Documented Call where
  write c :=
    .record [("method", write c.method), ("receiver", write c.receiver), ("args", write c.args)]
  read d := do
    let [some method, some receiver, some args] ←
      d.fields [("method", .refused), ("receiver", .null), ("args", .refused)] | none
    return ⟨← read method, ← read receiver, ← read args⟩

instance : Documented Expression where
  write
    | .int v => caseOf "IntLiteral" (write v)
    | .long v => caseOf "LongLiteral" (write v)
    | .var x => caseOf "Var" (write x)
    | .binary t => caseOf "Binary" (write t)
    | .neg x => caseOf "Neg" (write x)
    | .cast x type => caseOf "Cast" (.record [("value", write x), ("ty", write type)])
    | .field r => caseOf "FieldAccess" (write r)
    | .element r => caseOf "ArrayAccess" (write r)
    | .call c => caseOf "Invoke" (write c)
    | .alloc type => caseOf "New" (write type)
  read d := do
    let (name, some c) ← d.case? | none
    match name with
    | "IntLiteral" => (read c).map .int
    | "LongLiteral" => (read c).map .long
    | "Var" => (read c).map .var
    | "Binary" => (read c).map .binary
    | "Neg" => (read c).map .neg
    | "Cast" =>
      let .record fs := c | none
      let [some x, some type] ←
        (Document.record fs).fields [("value", .refused), ("ty", .refused)] | none
      return .cast (← read x) (← read type)
    | "FieldAccess" => (read c).map .field
    | "ArrayAccess" => (read c).map .element
    | "Invoke" => (read c).map .call
    | "New" => (read c).map .alloc
    | _ => none

instance : Documented Place where
  write
    | .var x => caseOf "Var" (write x)
    | .field r => caseOf "Field" (write r)
    | .element r => caseOf "Array" (write r)
  read d := do
    let (name, some c) ← d.case? | none
    match name with
    | "Var" => (read c).map .var
    | "Field" => (read c).map .field
    | "Array" => (read c).map .element
    | _ => none

instance : Documented Definition where
  write d := .record [("lvalue", write d.place), ("rvalue", write d.value)]
  read d := do
    let [some place, some value] ← d.fields [("lvalue", .refused), ("rvalue", .refused)] | none
    return ⟨← read place, ← read value⟩

instance : Documented Branch where
  write b := .record [("condition", write b.condition), ("target", write b.target)]
  read d := do
    let [some condition, some target] ←
      d.fields [("condition", .refused), ("target", .refused)] | none
    return ⟨← read condition, ← read target⟩

instance : Documented Statement where
  write
    | .define d => caseOf "Definition" (write d)
    | .branch b => caseOf "If" (write b)
    | .jump target => caseOf "Goto" (write target)
    | .call c => caseOf "Invoke" (write c)
    | .ret x => caseOf "Return" (write x)
    | .nop => .text "Nop"
  read d :=
    match d.case? with
    | some ("Definition", some c) => (read c).map .define
    | some ("If", some c) => (read c).map .branch
    | some ("Goto", some c) => (read c).map .jump
    | some ("Invoke", some c) => (read c).map .call
    | some ("Return", some c) => (read c).map .ret
    | _ => d.nameIn? [("Nop", .nop)]

instance : Documented Settings where
  write s := .record [("id", write s.id), ("max_iterations", write s.maxIterations)]
  read d := do
    let [some id, limit] ← d.fields [("id", .refused), ("max_iterations", .default)] | none
    match limit with
    | some n => return ⟨← read id, ← read n⟩
    | none => return { id := ← read id }

end ConstFlow
