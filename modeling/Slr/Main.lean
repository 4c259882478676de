import Slr.CommandLine.Run

/-! The command line. -/

open Slr.CommandLine in
def main (arguments : List String) : IO UInt32 := do
  let report := run Module.standard arguments
  IO.print report.output
  IO.eprint report.errors
  match report.outcome with
  | .ok code => return code.toUInt32
  | .error failure =>
    IO.eprintln failure.message
    return 1
