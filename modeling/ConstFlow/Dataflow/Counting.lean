import ConstFlow.Dataflow.Solver

/-! # Counting nodes along paths

A count goes up by one at every node, and the greatest of the counts that meet goes on.
Without a ceiling each visit claims a change, so a run ends only where no node can reach
itself.
-/
namespace ConstFlow.Counting

def analysis (settings : Settings) (direction : Direction := .forward)
    (ceiling : Option Nat := none) : Analysis Nat where
  settings := settings
  direction := direction
  boundary _ := 0
  initial := 0
  merge fact target := max target fact
  transfer _ input output :=
    match ceiling with
    | none => (input + 1, true)
    | some top => (min (input + 1) top, min (input + 1) top != output)
  text := toString

end ConstFlow.Counting
