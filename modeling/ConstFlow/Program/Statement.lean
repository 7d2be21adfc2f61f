import ConstFlow.Program.Expression

/-! # Statements

Jumps name labels, which a procedure binds to positions among its statements.
-/
namespace ConstFlow

structure Label where
  index : Nat
  deriving DecidableEq, Repr

def Label.text (l : Label) : String := s!"L{l.index}"

/-- What a definition writes to. -/
inductive Place where
  | var (x : Variable)
  | field (ref : FieldRef)
  | element (ref : ElementRef)
  deriving BEq, Repr

structure Definition where
  place : Place
  value : Expression
  deriving BEq, Repr

structure Branch where
  condition : BinaryTerm
  target : Label
  deriving BEq, Repr

inductive Statement where
  | define (d : Definition)
  | branch (b : Branch)
  | jump (target : Label)
  | call (c : Call)
  | ret (value : Option Variable)
  | nop
  deriving BEq, Repr

namespace Place

def text : Place → String
  | var x => x.name
  | field r => r.text
  | element r => r.text

def toVariable? : Place → Option Variable
  | var x => some x
  | _ => none

/-- The variables that are read to find the place. -/
def uses : Place → List Variable
  | var _ => []
  | field r => r.uses
  | element r => r.uses

end Place

def Definition.text (d : Definition) : String := s!"{d.place.text} = {d.value.text}"

def Branch.text (b : Branch) : String := s!"if ({b.condition.text}) goto {b.target.text}"

namespace Statement

def text : Statement → String
  | define d => d.text
  | branch b => b.text
  | jump target => s!"goto {target.text}"
  | call c => c.text
  | ret (some x) => s!"return {x.name}"
  | ret none => "return"
  | nop => "nop"

def toDefinition? : Statement → Option Definition
  | define d => some d
  | _ => none

/-- The variable that the statement assigns. -/
def assigned? (s : Statement) : Option Variable := s.toDefinition?.bind fun d => d.place.toVariable?

/-- The variables that the statement reads: those of the value before those of the place. -/
def uses : Statement → List Variable
  | define d => d.value.uses ++ d.place.uses
  | branch b => b.condition.uses
  | call c => c.uses
  | ret x => x.toList
  | jump _ | nop => []

/-- The label that the statement may jump to. -/
def target? : Statement → Option Label
  | branch b => some b.target
  | jump target => some target
  | _ => none

end Statement
end ConstFlow
