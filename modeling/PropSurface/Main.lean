import PropSurface.CommandLine
import PropSurface.Snapshot

/-!
# The program

Answers the command line for the project whose snapshot stands on standard input.
-/

namespace PropSurface

/-- All text that is left on a stream, after the text read so far. -/
partial def readAll (input : IO.FS.Stream) (soFar : String) : IO String := do
  let line ← input.getLine
  if line.isEmpty then return soFar else readAll input (soFar ++ line)

end PropSurface

/-- Read the snapshot, answer the arguments, write the answer. -/
def main (arguments : List String) : IO UInt32 := do
  let content ← PropSurface.readAll (← IO.getStdin) ""
  match PropSurface.Snapshot.read? content with
  | none =>
      IO.eprintln "standard input holds no snapshot of a project"
      return 1
  | some env =>
      let answer := PropSurface.CommandLine.run env arguments
      IO.print answer.output
      return answer.code.toUInt32
