/-! # Documents

Trees of null, truth values, numbers, texts, lists and records, into which data is
written and from which it is read back. Reading data of the wrong shape gives nothing.

A record of data may also be read from the list of its fields in order. An enumeration's
case without content is its name, alone or over null, and a case with content is a record
of one field under its name.
-/
namespace ConstFlow

inductive Document where
  | null
  | bool (b : Bool)
  | int (n : Int)
  /-- A number that is not written as an integer. -/
  | real
  | text (s : String)
  | list (items : List Document)
  | record (fields : List (String × Document))
  deriving Repr, BEq, Inhabited

/-- What the absence of a field means. -/
inductive Absence where
  | refused
  /-- Like null in a record. A list has to hold the field. -/
  | null
  /-- The field takes its default. -/
  | default
  deriving DecidableEq, Repr

class Documented (α : Type) where
  write : α → Document
  read : Document → Option α

export Documented (write read)

namespace Document

/-- A field's content, found or made up for; `some none` asks for the default. -/
def fieldOf (fields : List (String × Document)) (name : String) (absence : Absence) :
    Option (Option Document) :=
  match fields.lookup name, absence with
  | some d, _ => some (some d)
  | none, .refused => none
  | none, .null => some (some .null)
  | none, .default => some none

/-- The contents at the places of a list that holds fields in order. -/
def placesOf : List Absence → List Document → Option (List (Option Document))
  | [], [] => some []
  | [], _ :: _ => none
  | _ :: rules, d :: rest => (placesOf rules rest).map (some d :: ·)
  | .default :: rules, [] => (placesOf rules []).map (none :: ·)
  | .refused :: _, [] | .null :: _, [] => none

/-- The contents of the named fields, in the order of the names. Other fields of a record
are ignored. -/
def fields (rules : List (String × Absence)) : Document → Option (List (Option Document))
  | record fs => rules.mapM fun r => fieldOf fs r.1 r.2
  | list items => placesOf (rules.map (·.2)) items
  | _ => none

/-- The name of a case, and its content if it has any. -/
def case? : Document → Option (String × Option Document)
  | text name => some (name, none)
  | record [(name, content)] => some (name, some content)
  | _ => none

/-- Reads a case without content by its name. -/
def nameIn? {α : Type} (names : List (String × α)) (d : Document) : Option α :=
  match d.case? with
  | some (name, none) | some (name, some .null) => names.lookup name
  | _ => none

/-- An integer between bounds, the upper one excluded. -/
def intBetween? (lo hi : Int) : Document → Option Int
  | int n => if lo ≤ n ∧ n < hi then some n else none
  | _ => none

def caseOf (name : String) (content : Document) : Document := record [(name, content)]

end Document

instance : Documented String where
  write := .text
  read
    | .text s => some s
    | _ => none

/-- Natural numbers below `2 ^ 64`. -/
instance : Documented Nat where
  write n := .int n
  read d := (d.intBetween? 0 UInt64.size).map Int.toNat

instance : Documented Int32 where
  write n := .int n.toInt
  read d := (d.intBetween? (-0x80000000) 0x80000000).map Int32.ofInt

instance : Documented Int64 where
  write n := .int n.toInt
  read d := (d.intBetween? (-0x8000000000000000) 0x8000000000000000).map Int64.ofInt

instance {α : Type} [Documented α] : Documented (Option α) where
  write
    | some a => write a
    | none => .null
  read
    | .null => some none
    | d => (read d).map some

instance {α : Type} [Documented α] : Documented (List α) where
  write as := .list (as.map write)
  read
    | .list items => items.mapM read
    | _ => none

end ConstFlow
