import ConstFlow.Lattice.Operations

/-! # Checking lattice laws on samples

A law instance is one law at one choice of elements. A suite lists the instances over
some samples in the order in which they are evaluated: idempotence, commutativity and
associativity of join and of meet, absorption, agreement of the order with both
operations, and the bounds. The violations of a suite are the instances that fail.
-/
namespace ConstFlow

inductive LawInstance (α : Type) where
  | joinIdempotent (a : α)
  | joinCommutative (a b : α)
  | joinAssociative (a b c : α)
  | meetIdempotent (a : α)
  | meetCommutative (a b : α)
  | meetAssociative (a b c : α)
  | joinAbsorbs (a b : α)
  | meetAbsorbs (a b : α)
  | orderAgreesWithJoin (a b : α)
  | orderAgreesWithMeet (a b : α)
  | bottomBelow (x : α)
  | bottomUnit (x : α)
  | belowTop (x : α)
  | topUnit (x : α)

namespace LawInstance
variable {α : Type} [BEq α]

def holds (ops : LatticeOps α) : LawInstance α → Bool
  | joinIdempotent a => ops.join a a == a
  | joinCommutative a b => ops.join a b == ops.join b a
  | joinAssociative a b c => ops.join (ops.join a b) c == ops.join a (ops.join b c)
  | meetIdempotent a => ops.meet a a == a
  | meetCommutative a b => ops.meet a b == ops.meet b a
  | meetAssociative a b c => ops.meet (ops.meet a b) c == ops.meet a (ops.meet b c)
  | joinAbsorbs a b => ops.join a (ops.meet a b) == a
  | meetAbsorbs a b => ops.meet a (ops.join a b) == a
  | orderAgreesWithJoin a b => ops.le a b == (ops.join a b == b)
  | orderAgreesWithMeet a b => ops.le a b == (ops.meet a b == a)
  | bottomBelow x => ops.le ops.bottom x
  | bottomUnit x => ops.join ops.bottom x == x
  | belowTop x => ops.le x ops.top
  | topUnit x => ops.meet ops.top x == x

omit [BEq α] in
/-- What a report says of a violated instance. -/
def message (ops : LatticeOps α) (name : α → String) : LawInstance α → String
  | joinIdempotent a => s!"{name a} ⊔ {name a} != {name a}"
  | joinCommutative a b => s!"{name a} ⊔ {name b} is not commutative"
  | joinAssociative a b c =>
    s!"({name a} ⊔ {name b}) ⊔ {name c} != {name a} ⊔ ({name b} ⊔ {name c})"
  | meetIdempotent a => s!"{name a} ⊓ {name a} != {name a}"
  | meetCommutative a b => s!"{name a} ⊓ {name b} is not commutative"
  | meetAssociative a b c =>
    s!"({name a} ⊓ {name b}) ⊓ {name c} != {name a} ⊓ ({name b} ⊓ {name c})"
  | joinAbsorbs a b => s!"{name a} ⊔ ({name a} ⊓ {name b}) != {name a}"
  | meetAbsorbs a b => s!"{name a} ⊓ ({name a} ⊔ {name b}) != {name a}"
  | orderAgreesWithJoin a b => s!"{name a} ⊑ {name b} is {ops.le a b}, disagreeing with join"
  | orderAgreesWithMeet a b => s!"{name a} ⊑ {name b} is {ops.le a b}, disagreeing with meet"
  | bottomBelow x => s!"bottom is not below {name x}"
  | bottomUnit x => s!"bottom ⊔ {name x} != {name x}"
  | belowTop x => s!"{name x} is not below top"
  | topUnit x => s!"top ⊓ {name x} != {name x}"

end LawInstance

inductive LawSuite where
  | join
  | meet
  | absorption
  | ordering
  | lattice
  | bounded
  deriving DecidableEq, Repr

namespace LawSuite
variable {α : Type}
open LawInstance

def joinLaws (xs : List α) : List (LawInstance α) :=
  xs.flatMap fun a => joinIdempotent a :: xs.flatMap fun b =>
    joinCommutative a b :: xs.map fun c => joinAssociative a b c

def meetLaws (xs : List α) : List (LawInstance α) :=
  xs.flatMap fun a => meetIdempotent a :: xs.flatMap fun b =>
    meetCommutative a b :: xs.map fun c => meetAssociative a b c

def absorptionLaws (xs : List α) : List (LawInstance α) :=
  xs.flatMap fun a => xs.flatMap fun b => [joinAbsorbs a b, meetAbsorbs a b]

def orderingLaws (xs : List α) : List (LawInstance α) :=
  xs.flatMap fun a => xs.flatMap fun b => [orderAgreesWithJoin a b, orderAgreesWithMeet a b]

def boundLaws (xs : List α) : List (LawInstance α) :=
  xs.flatMap fun x => [bottomBelow x, bottomUnit x, belowTop x, topUnit x]

def latticeLaws (xs : List α) : List (LawInstance α) :=
  joinLaws xs ++ meetLaws xs ++ absorptionLaws xs ++ orderingLaws xs

/-- The instances of a suite over samples. The bounded suite adds bottom and top to them. -/
def instances (ops : LatticeOps α) (samples : List α) : LawSuite → List (LawInstance α)
  | join => joinLaws samples
  | meet => meetLaws samples
  | absorption => absorptionLaws samples
  | ordering => orderingLaws samples
  | lattice => latticeLaws samples
  | bounded =>
    let xs := samples ++ [ops.bottom, ops.top]
    latticeLaws xs ++ boundLaws xs

def violations [BEq α] (ops : LatticeOps α) (samples : List α) (suite : LawSuite) :
    List (LawInstance α) :=
  (suite.instances ops samples).filter fun l => !l.holds ops

end LawSuite

/-- The violations, counted, and numbered from one in order of evaluation. -/
def LawInstance.report {α : Type} (ops : LatticeOps α) (name : α → String)
    (violated : List (LawInstance α)) : String :=
  s!"{violated.length} lattice law(s) violated:" ++
    "".intercalate (violated.zipIdx.map fun e => s!"\n  {e.2 + 1}. {e.1.message ops name}")

/-- Accepts operations that violate nothing on the samples. For others all violations are
reported at once. -/
def LawSuite.check {α : Type} [BEq α] (ops : LatticeOps α) (name : α → String)
    (samples : List α) (suite : LawSuite) : Except String Unit :=
  match suite.violations ops samples with
  | [] => .ok ()
  | violated => .error (LawInstance.report ops name violated)

end ConstFlow
