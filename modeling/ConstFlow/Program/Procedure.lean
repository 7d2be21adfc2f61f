import ConstFlow.Collections.Registry
import ConstFlow.Program.Statement

/-! # Procedures

A procedure grows by declaring variables, creating labels, binding a label to the place
where the next statement will go, and appending statements. A label that is bound after
the last statement stands for the end of the procedure.
-/
namespace ConstFlow

inductive ProgramError where
  | unknownOperator (symbol : String)
  | unboundLabel (l : Label)
  | duplicateLabel (l : Label)
  | unknownVariable (id : Nat)
  deriving DecidableEq, Repr

def ProgramError.message : ProgramError → String
  | unknownOperator symbol => s!"unknown binary operator `{symbol}`"
  | unboundLabel l => s!"label {l.text} is not bound to a statement"
  | duplicateLabel l => s!"label {l.text} is already bound"
  | unknownVariable id => s!"unknown variable VarId(Id({id}))"

def Operator.parse (symbol : String) : Except ProgramError Operator :=
  match Operator.ofSymbol? symbol with
  | some op => .ok op
  | none => .error (.unknownOperator symbol)

structure Procedure where
  name : String
  params : List Variable
  «variables» : Registry Variable
  statements : List Statement
  labels : Registry (Option Nat)
  deriving Repr

namespace Procedure

def named (name : String) : Procedure := ⟨name, [], .empty, [], .empty⟩

/-- Declares a variable, which is numbered by order of declaration. -/
def declare (p : Procedure) (name : String) (type : DataType) (isParam : Bool := false) :
    Procedure × Variable :=
  let x : Variable := ⟨p.variables.nextId, name, type⟩
  ({ p with
      «variables» := (p.variables.add x).1
      params := if isParam then p.params ++ [x] else p.params }, x)

def newLabel (p : Procedure) : Procedure × Label :=
  ({ p with labels := (p.labels.add none).1 }, ⟨p.labels.nextId⟩)

/-- Binds a label to the next statement. A label is bound once. -/
def bind (p : Procedure) (l : Label) : Procedure × Except ProgramError Unit :=
  match p.labels.get? l.index with
  | none => (p, .error (.unboundLabel l))
  | some (some _) => (p, .error (.duplicateLabel l))
  | some none => ({ p with labels := p.labels.set l.index (some p.statements.length) }, .ok ())

/-- Appends a statement, and returns its position. -/
def push (p : Procedure) (s : Statement) : Procedure × Nat :=
  ({ p with statements := p.statements ++ [s] }, p.statements.length)

/-- The position that a label is bound to. -/
def labelTarget (p : Procedure) (l : Label) : Except ProgramError Nat :=
  match (p.labels.get? l.index).join with
  | some i => .ok i
  | none => .error (.unboundLabel l)

def variableOf (p : Procedure) (id : Nat) : Except ProgramError Variable :=
  match p.variables.get? id with
  | some x => .ok x
  | none => .error (.unknownVariable id)

/-- The first variable of a name. -/
def variableNamed? (p : Procedure) (name : String) : Option Variable :=
  p.variables.items.find? fun x => x.name == name

/-- Header with the parameters, then the statements with their positions, a line each. -/
def text (p : Procedure) : String :=
  let params := ", ".intercalate (p.params.map fun x => s!"{x.type.text} {x.name}")
  s!"{p.name}({params})\n" ++
    "".intercalate (p.statements.zipIdx.map fun e => s!"  [{e.2}] {e.1.text}\n")

end Procedure

/-- One step in writing a procedure. -/
inductive Edit where
  | declare (name : String) (type : DataType) (isParam : Bool)
  | newLabel
  | bind (l : Label)
  | push (s : Statement)
  deriving Repr

inductive EditReply where
  | declared (x : Variable)
  | created (l : Label)
  | bound
  | pushed (position : Nat)
  | failed (e : ProgramError)
  deriving Repr

def Procedure.edit (p : Procedure) : Edit → Procedure × EditReply
  | .declare name type isParam =>
    let (q, x) := p.declare name type isParam
    (q, .declared x)
  | .newLabel =>
    let (q, l) := p.newLabel
    (q, .created l)
  | .bind l =>
    match p.bind l with
    | (q, .ok ()) => (q, .bound)
    | (q, .error e) => (q, .failed e)
  | .push s =>
    let (q, i) := p.push s
    (q, .pushed i)

def Procedure.edits (p : Procedure) (es : List Edit) : Procedure :=
  es.foldl (fun q e => (q.edit e).1) p

end ConstFlow
