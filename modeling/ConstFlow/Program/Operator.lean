/-! # Binary operators

Four groups of operators, and the symbols that name them. The symbols are pairwise
distinct, so reading a symbol back finds its operator.
-/
namespace ConstFlow

inductive Arithmetic where
  | add
  | sub
  | mul
  | div
  | rem
  deriving DecidableEq, Repr

inductive Comparison where
  | eq
  | ne
  | lt
  | gt
  | le
  | ge
  deriving DecidableEq, Repr

inductive Shift where
  | left
  | right
  | unsignedRight
  deriving DecidableEq, Repr

inductive Bitwise where
  | or
  | and
  | xor
  deriving DecidableEq, Repr

inductive Operator where
  | arithmetic (op : Arithmetic)
  | comparison (op : Comparison)
  | shift (op : Shift)
  | bitwise (op : Bitwise)
  deriving DecidableEq, Repr

def Arithmetic.symbol : Arithmetic → String
  | add => "+"
  | sub => "-"
  | mul => "*"
  | div => "/"
  | rem => "%"

def Comparison.symbol : Comparison → String
  | eq => "=="
  | ne => "!="
  | lt => "<"
  | gt => ">"
  | le => "<="
  | ge => ">="

def Shift.symbol : Shift → String
  | left => "<<"
  | right => ">>"
  | unsignedRight => ">>>"

def Bitwise.symbol : Bitwise → String
  | or => "|"
  | and => "&"
  | xor => "^"

namespace Operator

def symbol : Operator → String
  | arithmetic op => op.symbol
  | comparison op => op.symbol
  | shift op => op.symbol
  | bitwise op => op.symbol

/-- Name of an operator's group. -/
def group : Operator → String
  | arithmetic _ => "Arithmetic"
  | comparison _ => "Condition"
  | shift _ => "Shift"
  | bitwise _ => "Bitwise"

/-- Every operator once. -/
def all : List Operator :=
  [arithmetic .add, arithmetic .sub, arithmetic .mul, arithmetic .div, arithmetic .rem,
    comparison .eq, comparison .ne, comparison .lt, comparison .gt, comparison .le,
    comparison .ge, shift .left, shift .right, shift .unsignedRight,
    bitwise .or, bitwise .and, bitwise .xor]

def ofSymbol? (s : String) : Option Operator := all.find? fun op => op.symbol == s

theorem ofSymbol?_symbol (op : Operator) : ofSymbol? op.symbol = some op := by
  rcases op with op | op | op | op <;> cases op <;> decide

end Operator
end ConstFlow
