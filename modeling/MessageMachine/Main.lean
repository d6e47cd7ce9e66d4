import MessageMachine.CommandLine

/-!
# The program

Runs the command line and writes what it leaves.
-/

/-- Writes the answer, the time taken if statistics are wanted, and the statistics. -/
def main (arguments : List String) : IO UInt32 := do
  let start ← IO.monoNanosNow
  let outcome := MessageMachine.CommandLine.run arguments
  outcome.errors.forM fun line => IO.eprintln line
  outcome.answer.forM fun line => IO.println line
  let elapsed := (← IO.monoNanosNow) - start
  unless outcome.statistics.isEmpty do
    IO.println ("time:          " ++ toString elapsed ++ "ns")
  outcome.statistics.forM fun line => IO.println line
  return .ofNat outcome.code
