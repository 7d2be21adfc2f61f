import ConstFlow.Program.Procedure

/-! # Sample procedures

Straight-line code, two branches that join, a counting loop, and parameters of mixed
types.
-/
namespace ConstFlow

inductive Sample where
  | straight
  | branch
  | loop
  | params
  deriving DecidableEq, Repr

namespace Sample

def all : List Sample := [straight, branch, loop, params]

def name : Sample → String
  | straight => "straight"
  | branch => "branch"
  | loop => "loop"
  | params => "params"

def ofName? (s : String) : Option Sample := all.find? fun x => x.name == s

def int (id : Nat) (name : String) : Variable := ⟨id, name, .primitive .int⟩

def declareInt (name : String) (isParam : Bool := false) : Edit :=
  .declare name (.primitive .int) isParam

def assign (x : Variable) (e : Expression) : Edit := .push (.define ⟨.var x, e⟩)

/-- `z = x + y` with `x = 1` and `y = 2`. -/
def straightEdits : List Edit :=
  let (x, y, z) := (int 0 "x", int 1 "y", int 2 "z")
  [declareInt "x", declareInt "y", declareInt "z",
    assign x (.int 1),
    assign y (.int 2),
    assign z (.binary ⟨x, y, .arithmetic .add⟩),
    .push (.ret (some z))]

/-- `x` is one or two, depending on how the parameters compare. -/
def branchEdits : List Edit :=
  let (p, q, x) := (int 0 "p", int 1 "q", int 2 "x")
  let (other, join) := (Label.mk 0, Label.mk 1)
  [declareInt "p" true, declareInt "q" true, declareInt "x", .newLabel, .newLabel,
    .push (.branch ⟨⟨p, q, .comparison .lt⟩, other⟩),
    assign x (.int 1),
    .push (.jump join),
    .bind other,
    assign x (.int 2),
    .bind join,
    .push (.ret (some x))]

/-- `x` counts from zero up to the parameter. -/
def loopEdits : List Edit :=
  let (n, x, one) := (int 0 "n", int 1 "x", int 2 "one")
  let (head, done) := (Label.mk 0, Label.mk 1)
  [declareInt "n" true, declareInt "x", declareInt "one", .newLabel, .newLabel,
    assign x (.int 0),
    assign one (.int 1),
    .bind head,
    .push (.branch ⟨⟨x, n, .comparison .ge⟩, done⟩),
    assign x (.binary ⟨x, one, .arithmetic .add⟩),
    .push (.jump head),
    .bind done,
    .push (.ret (some x))]

def paramsEdits : List Edit :=
  [declareInt "i" true,
    .declare "l" (.primitive .long) true,
    .declare "s" (.object "java.lang.String") true,
    .declare "flag" (.primitive .boolean) true,
    .declare "c" (.primitive .char) true,
    .declare "d" (.primitive .double) true,
    .push (.ret none)]

def procedure : Sample → Procedure
  | straight => (Procedure.named "straight").edits straightEdits
  | branch => (Procedure.named "branch").edits branchEdits
  | loop => (Procedure.named "count").edits loopEdits
  | params => (Procedure.named "params").edits paramsEdits

end Sample
end ConstFlow
