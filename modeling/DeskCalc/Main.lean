import DeskCalc.CommandLine

/-!
# The program

Runs the command on the files of the machine.
-/

namespace DeskCalc.CommandLine

/-- A file error under the number that the machine gives it. -/
def FileError.numbered (code : UInt32) (details : String) : FileError :=
  .other (details ++ " (os error " ++ toString code ++ ")")

/-- The file error that the machine reports. -/
def FileError.ofMachine : IO.Error → FileError
  | .noFileOrDirectory .. => .notFound
  | .inappropriateType _ code details => numbered code details
  | .permissionDenied _ code details => numbered code details
  | .invalidArgument _ code details => numbered code details
  | .resourceExhausted _ code details => numbered code details
  | .resourceBusy code details => numbered code details
  | .hardwareFault code details => numbered code details
  | .otherError code details => numbered code details
  | e => .other (toString e)

/-- Reading and writing files of the machine. -/
def machineAccess : FileAccess IO where
  read path := do
    try
      return .ok (← IO.FS.readBinFile path)
    catch e => return .error (.ofMachine e)
  write path bytes := do
    try
      IO.FS.writeBinFile path bytes
      return .ok ()
    catch e => return .error (.ofMachine e)

/-- The settings' variables of the environment of the machine. -/
def machineEnvironment : IO Environment := do
  let mut env : Environment := []
  for name in [Settings.capacityVariable, Settings.scaleVariable] do
    if let some value ← IO.getEnv name then
      env := (name, value.toUTF8) :: env
  return env

end DeskCalc.CommandLine

open DeskCalc.CommandLine in
/-- Compile a source file to a target file. -/
def main (arguments : List String) : IO UInt32 := do
  let report ← run machineAccess (← machineEnvironment) arguments
  IO.eprint report.errorText
  return report.status.code.toUInt32
