/-! # Types of variables -/
namespace ConstFlow

inductive Primitive where
  | byte
  | short
  | int
  | char
  | boolean
  | long
  | float
  | double
  deriving DecidableEq, Repr

def Primitive.name : Primitive → String
  | byte => "byte"
  | short => "short"
  | int => "int"
  | char => "char"
  | boolean => "boolean"
  | long => "long"
  | float => "float"
  | double => "double"

/-- The types whose values are 32-bit integers in arithmetic. -/
def Primitive.isIntLike : Primitive → Bool
  | byte | short | int | char | boolean => true
  | long | float | double => false

inductive DataType where
  | primitive (p : Primitive)
  | object (name : String)
  | array (elem : DataType)
  | null
  deriving DecidableEq, Repr

namespace DataType

def text : DataType → String
  | primitive p => p.name
  | object name => name
  | array elem => elem.text ++ "[]"
  | null => "null"

def toPrimitive? : DataType → Option Primitive
  | primitive p => some p
  | _ => none

def isReference (t : DataType) : Bool := t.toPrimitive?.isNone

def isIntLike (t : DataType) : Bool := t.toPrimitive?.any Primitive.isIntLike

/-- The array type with `dims` dimensions over `elem`. -/
def arrayOf (elem : DataType) : Nat → DataType
  | 0 => elem
  | dims + 1 => array (arrayOf elem dims)

end DataType
end ConstFlow
