import StagedDiagnostics.CommandLine.Launch
import StagedDiagnostics.Session

/-!
# Main — the program

The command line is read, and a start is announced on the error output.  What carries the messages
of a session is not part of this library, and neither is any analyzer: the registry is empty.
-/

open StagedDiagnostics

/-- Reads the command line and announces what it leads to. -/
def main (arguments : List String) : IO UInt32 := do
  let registry : Registry Analyzer := []
  match CommandLine.run registry arguments with
  | .launched l =>
    (← IO.getStderr).putStrLn l.announcement
    return 0
  | .ended code out err =>
    (← IO.getStdout).putStr out
    (← IO.getStderr).putStr err
    return code.toUInt32
  | .failed fault =>
    (← IO.getStderr).putStrLn fault.message
    return 1
