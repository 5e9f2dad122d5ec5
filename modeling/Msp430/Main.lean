import Msp430.Command.Session

/-!
# The program

The session of the command line, with the files of the system as its storage.
-/

namespace Msp430

namespace Main

/-- The file fault that a failed system call amounts to. A path that runs through a file has
the code 20, which some calls report negated. -/
def fileFault : IO.Error → FileFault
  | .noFileOrDirectory _ _ _ => .notFound
  | .inappropriateType _ code _ => if code = 20 ∨ -code = 20 then .notFolder else .isFolder
  | error => .other error.toString.toList

instance : Storage IO where
  read path := do
    try return .ok (← IO.FS.readBinFile (String.ofList path))
    catch error => return .error (fileFault error)
  write path text := do
    try return .ok (← IO.FS.writeFile (String.ofList path) (String.ofList text))
    catch error => return .error (fileFault error)

end Main

end Msp430

/-- Runs the session of the given arguments and prints what it says. -/
def main (arguments : List String) : IO UInt32 := do
  let outcome ← Msp430.Session.run (arguments.map String.toList)
  (← IO.getStdout).putStr (String.ofList outcome.output)
  (← IO.getStderr).putStr (String.ofList outcome.errors)
  return UInt32.ofNat outcome.status
