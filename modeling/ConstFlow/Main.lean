import ConstFlow.CommandLine.Response

/-! # The program -/

def main (args : List String) : IO UInt32 := do
  let response := ConstFlow.CommandLine.respond args
  IO.print response.output
  for note in response.notes do
    IO.eprintln note
  if let some failure := response.failure then
    IO.eprint failure
  return response.code.toUInt32
