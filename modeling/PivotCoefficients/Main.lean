import PivotCoefficients.CommandLine.Response

/-!
# The program

Prints the response to its arguments.
-/

open PivotCoefficients.CommandLine in
def main (arguments : List String) : IO UInt32 := do
  let response := respond arguments
  IO.print response.output
  unless response.diagnostic.isEmpty do
    IO.eprintln response.diagnostic
  return UInt32.ofNat response.exitStatus
