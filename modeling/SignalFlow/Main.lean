import SignalFlow.Command.Run

/-!
# The program

Prints the outcome of the arguments: results on the standard output, errors on the standard error.
-/

/-- Runs the program. -/
def main (args : List String) : IO UInt32 := do
  let outcome := SignalFlow.Command.run args
  IO.print outcome.output
  IO.eprint outcome.complaint
  return outcome.code.toUInt32
