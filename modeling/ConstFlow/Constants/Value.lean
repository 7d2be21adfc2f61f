import ConstFlow.Lattice.Operations

/-! # Abstract values of one variable

A value is undefined, one known constant, or not a constant. The undefined value is
least, `nac` is greatest, and distinct constants are incomparable.
-/
namespace ConstFlow

inductive Value where
  /-- No definition has reached this point. -/
  | undefined
  | constant (c : Int32)
  /-- The variable may hold more than one value. -/
  | nac
  deriving DecidableEq, Repr, Inhabited

namespace Value

def isUndefined : Value → Bool
  | undefined => true
  | _ => false

def isConstant : Value → Bool
  | constant _ => true
  | _ => false

def isNac : Value → Bool
  | nac => true
  | _ => false

def toConstant? : Value → Option Int32
  | constant c => some c
  | _ => none

def join : Value → Value → Value
  | nac, _ | _, nac => nac
  | undefined, v | v, undefined => v
  | constant a, constant b => if a = b then constant a else nac

def meet : Value → Value → Value
  | undefined, _ | _, undefined => undefined
  | nac, v | v, nac => v
  | constant a, constant b => if a = b then constant a else undefined

def le : Value → Value → Bool
  | undefined, _ | _, nac => true
  | constant a, constant b => a == b
  | _, _ => false

def lattice : LatticeOps Value where
  join := join
  meet := meet
  le := le
  bottom := undefined
  top := nac

def text : Value → String
  | undefined => "UNDEF"
  | constant c => toString c.toInt
  | nac => "NAC"

/-- The value as a term, the way law reports name it. -/
def term : Value → String
  | undefined => "Undef"
  | constant c => s!"Constant({c.toInt})"
  | nac => "Nac"

/-- The one constant, or a complaint that there is none. -/
def theConstant (v : Value) : Except String Int32 :=
  match v.toConstant? with
  | some c => .ok c
  | none => .error s!"`{v.text}` is not a constant"

end Value
end ConstFlow
