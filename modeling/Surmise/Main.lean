import Surmise.CommandLine

/-!
The program: reads the files that the command line names and prints the report.
-/

namespace Surmise

def readText (path : String) : IO (Except String String) := do
  try
    return .ok (← IO.FS.readFile path)
  catch e =>
    match e with
    | .noFileOrDirectory .. => return .error "No such file or directory (os error 2)"
    | e => return .error (toString e)

def readTexts : List String → IO (List (String × Except String String))
  | [] => return []
  | path :: paths => do
    let text ← readText path
    return (path, text) :: (← readTexts paths)

end Surmise

open Surmise in
def main (args : List String) : IO UInt32 := do
  let command := CommandLine.ofArguments args
  let texts ← readTexts (command.config.toList ++ command.file.toList)
  let report := command.perform fun path =>
    (texts.lookup path).getD (.error "No such file or directory (os error 2)")
  (← IO.getStdout).putStr report.output
  (← IO.getStderr).putStr report.errors
  return report.code.toUInt32
