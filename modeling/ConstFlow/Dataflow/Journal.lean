import ConstFlow.Dataflow.Solver

/-! # The journal of a run

A run announces itself, tells of each visit, remarks before the visit that they belong
to, and says so when it has converged.
-/
namespace ConstFlow

inductive Level where
  | debug
  | trace
  deriving DecidableEq, Repr

def Level.name : Level → String
  | debug => "DEBUG"
  | trace => "TRACE"

structure JournalEntry where
  level : Level
  text : String
  deriving DecidableEq, Repr

namespace Analysis
variable {F : Type} (a : Analysis F) (g : FlowGraph)

def openingEntry : JournalEntry :=
  ⟨.debug, s!"solving `{a.settings.id}` on `{g.procedure.name}` " ++
    s!"({g.size} nodes, {a.direction.name})"⟩

/-- Only an attempt that succeeds has a closing entry. -/
def closingEntries : Except SolveError (Solution F) → List JournalEntry
  | .ok r => [⟨.debug, s!"`{a.settings.id}` on `{g.procedure.name}` " ++
      s!"converged after {r.iterations} iterations"⟩]
  | .error _ => []

def visitEntries (v : Visit F) : List JournalEntry :=
  let sides := match a.direction with
    | .forward => s!"in {a.text v.input} out {a.text v.output}"
    | .backward => s!"out {a.text v.input} in {a.text v.output}"
  (a.remarks (g.statement v.node) v.input).map (⟨.debug, ·⟩) ++
    [⟨.trace, s!"{g.label v.node}: {sides} changed={v.changed}"⟩]

/-- The journal of an attempt under a limit. -/
def journal (limit : Nat) : List JournalEntry :=
  a.openingEntry g :: (a.attempt g limit).visits.reverse.flatMap (a.visitEntries g) ++
    a.closingEntries g (a.solveWithin g limit)

end Analysis
end ConstFlow
