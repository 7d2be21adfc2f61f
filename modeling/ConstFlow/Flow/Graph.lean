import ConstFlow.Program.Procedure

/-! # Flow graphs

The nodes of a flow graph are an entry, numbered zero, the statements of a procedure in
order, and an exit, numbered last. An arc records why control may pass from one node to
another. Arcs are listed in the order in which the statements give rise to them, and two
arcs may join the same nodes.
-/
namespace ConstFlow

inductive ArcKind where
  /-- From the entry to the first statement. -/
  | enter
  | fallThrough
  | jump
  | ifTrue
  | ifFalse
  /-- From a return to the exit. -/
  | leave
  deriving DecidableEq, Repr

def ArcKind.name : ArcKind → String
  | enter => "Entry"
  | fallThrough => "FallThrough"
  | jump => "Goto"
  | ifTrue => "IfTrue"
  | ifFalse => "IfFalse"
  | leave => "Return"

structure Arc where
  source : Nat
  target : Nat
  kind : ArcKind
  deriving DecidableEq, Repr

namespace Procedure

/-- The node that stands at a position: a statement's own node, or the exit from the end on. -/
def nodeAt (p : Procedure) (i : Nat) : Nat := min i p.statements.length + 1

/-- The arcs that leave the statement at position `i`. -/
def arcsOf (p : Procedure) (i : Nat) : Statement → Except ProgramError (List Arc)
  | .jump l => do
    let t ← p.labelTarget l
    return [⟨i + 1, p.nodeAt t, .jump⟩]
  | .branch b => do
    let t ← p.labelTarget b.target
    return [⟨i + 1, p.nodeAt t, .ifTrue⟩, ⟨i + 1, p.nodeAt (i + 1), .ifFalse⟩]
  | .ret _ => .ok [⟨i + 1, p.statements.length + 1, .leave⟩]
  | .define _ | .call _ | .nop => .ok [⟨i + 1, p.nodeAt (i + 1), .fallThrough⟩]

/-- The arcs that leave the statements from position `i` on. -/
def arcsFrom (p : Procedure) (i : Nat) : List Statement → Except ProgramError (List Arc)
  | [] => .ok []
  | s :: rest => do
    let here ← p.arcsOf i s
    let later ← p.arcsFrom (i + 1) rest
    return here ++ later

/-- All arcs of the procedure, or the first jump to a label that is not bound. -/
def arcs (p : Procedure) : Except ProgramError (List Arc) := do
  let arcs ← p.arcsFrom 0 p.statements
  return ⟨0, p.nodeAt 0, .enter⟩ :: arcs

end Procedure

structure FlowGraph where
  procedure : Procedure
  arcs : List Arc
  arcs_eq : procedure.arcs = .ok arcs

def Procedure.flowGraph (p : Procedure) : Except ProgramError FlowGraph :=
  match h : p.arcs with
  | .ok arcs => .ok ⟨p, arcs, h⟩
  | .error e => .error e

namespace FlowGraph

def size (g : FlowGraph) : Nat := g.procedure.statements.length + 2

def entry (_ : FlowGraph) : Nat := 0

def exit (g : FlowGraph) : Nat := g.procedure.statements.length + 1

def nodes (g : FlowGraph) : List Nat := List.range g.size

/-- The node of the statement at a position. -/
def nodeOf? (g : FlowGraph) (i : Nat) : Option Nat :=
  if i < g.procedure.statements.length then some (i + 1) else none

/-- The statement at a node. Nothing happens at the entry, the exit, and outside the graph. -/
def statement (g : FlowGraph) : Nat → Statement
  | 0 => .nop
  | i + 1 => (g.procedure.statements[i]?).getD .nop

/-- The distinct targets of arcs from `n`, ascending. -/
def succs (g : FlowGraph) (n : Nat) : List Nat :=
  let targets := (g.arcs.filter fun a => a.source == n).map Arc.target
  g.nodes.filter targets.contains

/-- The distinct sources of arcs to `n`, ascending. -/
def preds (g : FlowGraph) (n : Nat) : List Nat :=
  let sources := (g.arcs.filter fun a => a.target == n).map Arc.source
  g.nodes.filter sources.contains

/-- The kinds of all arcs from `m` to `n`, the latest first. -/
def kinds (g : FlowGraph) (m n : Nat) : List ArcKind :=
  ((g.arcs.filter fun a => a.source == m && a.target == n).map Arc.kind).reverse

def shortName (g : FlowGraph) (n : Nat) : String :=
  if n = g.entry then "entry" else if n = g.exit then "exit" else s!"[{n - 1}]"

/-- Short name of a node, and its statement if it has one. -/
def label (g : FlowGraph) (n : Nat) : String :=
  if n = g.entry ∨ n = g.exit then g.shortName n
  else s!"{g.shortName n} {(g.statement n).text}"

/-- One line a node, with its successors. -/
def text (g : FlowGraph) : String :=
  "".intercalate (g.nodes.map fun n =>
    let succs := (g.succs n).map g.shortName
    let arrow := if succs.isEmpty then [] else "->" :: succs
    " ".intercalate (g.label n :: arrow) ++ "\n")

end FlowGraph
end ConstFlow
