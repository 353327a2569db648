import GrammarNet.Demo

/-!
The command line: prints the demonstration and, when it is given a path, writes the graph of the
network there.
-/

namespace GrammarNet

namespace Demo

/-- Prints the time since a moment, in microseconds. -/
def printElapsed (start : Nat) : IO Unit := do
  let now ← IO.monoNanosNow
  IO.println ("Elapsed time: " ++ toString ((now - start) / 1000) ++ " us")

end Demo

end GrammarNet

open GrammarNet

/-- Runs the demonstration. -/
def main (args : List String) : IO UInt32 := do
  let start ← IO.monoNanosNow
  let (text, graph) := Demo.output
  IO.print text
  match args with
  | [] =>
      Demo.printElapsed start
      pure 0
  | path :: _ =>
      try
        IO.FS.writeFile path graph
        Demo.printElapsed start
        pure 0
      catch _ =>
        IO.eprint (Demo.openFailure path)
        pure 1
