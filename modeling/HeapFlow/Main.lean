import HeapFlow.Tool
/-!
# HeapFlow.Main

The command line: reads the input file, runs the tool and writes what it reports. Log messages go to
the error output. The exit code is zero if the report was written.
-/

namespace HeapFlow

namespace CommandLine

/-- The content of a file, if it can be read. -/
def readInput (path : String) : IO (Option String) := do
  try
    return some (← IO.FS.readFile path)
  catch _ =>
    return none

/-- The name under which the tool was called. -/
def calledName : IO String := do
  return ((← IO.appPath).fileName).getD "heapflow"

/-- Runs the tool and gives the exit code. -/
def run (args : List String) : IO UInt32 := do
  let flags := Flags.ofArgs args
  let content ← match flags.input with
    | some path => readInput path
    | none => pure none
  let files (_ : String) := content.map Document.ofText
  match Tool.run (← calledName) flags files with
  | .refused line =>
    IO.eprintln line
    return 1
  | .done report messages =>
    messages.forM IO.eprintln
    report.forM IO.println
    return 0
  | .failed message messages =>
    messages.forM IO.eprintln
    IO.eprintln ("error: " ++ message)
    return 1

end CommandLine

end HeapFlow

def main (args : List String) : IO UInt32 := HeapFlow.CommandLine.run args
