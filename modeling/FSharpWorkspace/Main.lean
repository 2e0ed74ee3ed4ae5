import FSharpWorkspace.CommandLine.Host
/-!
# The program

Reads the host from standard input, runs the command line on it, and leaves the report.
-/

set_option autoImplicit false

namespace FSharpWorkspace.CommandLine

/-- The lines of a stream up to its end, put together. -/
partial def readText (input : IO.FS.Stream) (done : String) : IO String := do
  let line ← input.getLine
  if line.isEmpty then return done
  readText input (done ++ line)

end FSharpWorkspace.CommandLine

open FSharpWorkspace.CommandLine in
def main (words : List String) : IO UInt32 := do
  match Host.ofText? (← readText (← IO.getStdin) "") with
  | none =>
    IO.eprintln "Error: Failed to read the description of the host"
    return 1
  | some host =>
    let report := run host words
    IO.print report.output
    IO.eprint report.errors
    return report.status.toUInt32
