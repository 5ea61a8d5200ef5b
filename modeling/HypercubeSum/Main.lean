import HypercubeSum.Demo.Walkthrough
import HypercubeSum.Transcript.Blake2b

/-!
# The command line

The program prints the walk through both protocols.
-/

open HypercubeSum in
/-- Prints the lines of the walk, or the fault that ends it. -/
def main : IO UInt32 := do
  match Demo.walkthrough Blake2b.hash with
  | .ok lines =>
    lines.forM fun line => IO.println line
    return 0
  | .error fault =>
    IO.eprintln fault.message
    return 1
