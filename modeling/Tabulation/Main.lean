/-
The command line: arguments in, lines and an exit code out.
-/
import Tabulation.Command.Run

namespace Tabulation.Command

/-- Create the log file that the arguments name, if they name one. -/
def createLogFile (args : List String) : IO Bool := do
  match Options.parse args with
  | .ok { logFile := some path, .. } =>
    try
      IO.FS.writeFile path ""
      return true
    catch _ => return false
  | _ => return true

end Tabulation.Command

/-- Analyse a built-in program as the arguments say. -/
def main (args : List String) : IO UInt32 := do
  let created ← Tabulation.Command.createLogFile args
  let outcome := Tabulation.Command.run (fun _ => created) args
  for line in outcome.lines do
    IO.println line
  return UInt32.ofNat outcome.exitCode
