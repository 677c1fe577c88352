import ImageReference.CommandLine.Run

/-!
# The program

Looks at the arguments for what has to be read, reads it, runs the program on
what was read and prints what the run gives.
-/

namespace ImageReference.CommandLine

/-- The system's code for a directory in place of a file. The same kind of error is reported where
a step of a path is a file, and then nothing stands at the path. -/
def directoryCode : UInt32 := 21

def readNode (path : FilePath) : IO (Option FileNode) := do
  try
    let bytes ← IO.FS.readBinFile (String.ofList path.toText)
    return some (.file bytes.data.toList)
  catch
    | .inappropriateType _ code _ =>
        return if code = directoryCode then some .directory else none
    | .noFileOrDirectory .. => return none
    | error => throw error

def gather (arguments : List Text) : IO Invocation := do
  let maxNameLength := (← IO.getEnv (String.ofList limitVariable)).map String.toList
  match readArguments arguments with
  | .run { command := some (.parse none), .. } =>
      let line ← (← IO.getStdin).getLine
      return { arguments, maxNameLength, input := line.toList }
  | .run { command := some (.check fixture), .. } =>
      let node ← readNode (.ofText fixture)
      return { arguments, maxNameLength, files := fun _ => node }
  | _ => return { arguments, maxNameLength }

def Breakdown.message : Breakdown → String
  | .noText .directory => "the corpus is a directory"
  | .noText .notUtf8 => "the corpus is not UTF-8 text"
  | .noLimit => "the longest accepted name has no value"

end ImageReference.CommandLine

open ImageReference.CommandLine in
def main (arguments : List String) : IO UInt32 := do
  match run (← gather (arguments.map String.toList)) with
  | .exit code output =>
      (← IO.getStdout).putStr (String.ofList output)
      return code.toUInt32
  | .broken output reason =>
      (← IO.getStdout).putStr (String.ofList output)
      (← IO.getStderr).putStrLn reason.message
      return 1
