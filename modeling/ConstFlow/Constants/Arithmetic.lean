import ConstFlow.Program.Operator

/-! # Arithmetic on 32-bit words

Sums, differences and products wrap around, division truncates toward zero, a shift
distance counts modulo 32, and a comparison yields one or zero. Only a zero divisor is
at fault.
-/
namespace ConstFlow

inductive EvalFault where
  | divideByZero (op : Operator) (dividend : Int32)
  deriving DecidableEq, Repr

def EvalFault.message : EvalFault → String
  | divideByZero op dividend => s!"`{dividend.toInt} {op.symbol} 0` divides by zero"

def Arithmetic.fold (op : Arithmetic) (y z : Int32) : Except EvalFault Int32 :=
  match op with
  | add => .ok (y + z)
  | sub => .ok (y - z)
  | mul => .ok (y * z)
  | div => if z = 0 then .error (.divideByZero (.arithmetic div) y) else .ok (y / z)
  | rem => if z = 0 then .error (.divideByZero (.arithmetic rem) y) else .ok (y % z)

def Comparison.holds (op : Comparison) (y z : Int32) : Bool :=
  match op with
  | eq => y = z
  | ne => y ≠ z
  | lt => y < z
  | gt => z < y
  | le => y ≤ z
  | ge => z ≤ y

def Shift.fold (op : Shift) (y z : Int32) : Int32 :=
  match op with
  | left => y <<< z
  | right => y >>> z
  | unsignedRight => (y.toUInt32 >>> z.toUInt32).toInt32

def Bitwise.fold (op : Bitwise) (y z : Int32) : Int32 :=
  match op with
  | or => y ||| z
  | and => y &&& z
  | xor => y ^^^ z

def Operator.fold (op : Operator) (y z : Int32) : Except EvalFault Int32 :=
  match op with
  | arithmetic op => op.fold y z
  | comparison op => .ok (if op.holds y z then 1 else 0)
  | shift op => .ok (op.fold y z)
  | bitwise op => .ok (op.fold y z)

end ConstFlow
