import Planetarium.CommandLine

/-!
# The program

Hands the words of the command line and the files that they name to `CommandLine.run`, prints what
comes back, and ends with its status.
-/
namespace Planetarium

/-- What stands under a path on this machine.  What is there and cannot be read as a file counts as
a directory. -/
def fileState (path : String) : IO FileState := do
  try
    let contents ← IO.FS.readBinFile path
    return .bytes contents.toList
  catch
    | .noFileOrDirectory .. => return .missing
    | _ => return .directory

end Planetarium

open Planetarium in
/-- Runs the program. -/
def main (words : List String) : IO UInt32 := do
  let states ← words.mapM fun word => do return (word, ← fileState word)
  let result := CommandLine.run (fun path => (states.lookup path).getD .missing) words
  for warning in result.warnings do
    IO.eprintln ("Warning: " ++ warning.message)
  match result.outcome with
  | .ok text => IO.print text
  | .error problem => IO.eprintln ("Error: " ++ problem.message)
  return result.status.toUInt32
