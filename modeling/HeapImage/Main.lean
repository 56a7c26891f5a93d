import HeapImage.CommandLine.Run

/-!
# The command line

Reads a file, writes a file, and prints; what to do with the contents is decided elsewhere.
-/

namespace HeapImage.CommandLine

/-- The number of an error, whose code is negated if a file could not be opened. -/
def errorNumber (code : UInt32) : Nat := min code.toNat (0x100000000 - code.toNat)

/-- A failure of the file system in the words of the system. -/
def fileError : IO.Error → FileError
  | .noFileOrDirectory .. => .notFound
  | .permissionDenied .. => .permissionDenied
  | .inappropriateType _ code _ =>
    if errorNumber code = 20 then .notADirectory else .isADirectory
  | .invalidArgument _ code text =>
    if errorNumber code = 36 then .nameTooLong else .other text
  | e => .other (toString e)

/-- The result of an action on the file system. -/
def attempted {α : Type} (action : IO α) : IO (Except FileError α) := do
  try return .ok (← action) catch e => return .error (fileError e)

/-- The variables that loads look at. -/
def environment : IO (String → Option String) := do
  let names := [LoadOptions.modeVariable, LoadOptions.verifyVariable, LoadOptions.checksumVariable]
  let settings ← names.mapM fun name => return (name, ← IO.getEnv name)
  return fun name => (settings.lookup name).join

/-- Carries out a command. -/
def Command.execute (c : Command) : IO UInt8 := do
  let contents ← attempted (IO.FS.readBinFile c.input)
  let plan := c.plan (← environment) (contents.mapError c.access.refusal)
  let written ← match plan with
    | .write path bytes _ => attempted (IO.FS.writeBinFile path bytes)
    | .done _ => pure (.ok ())
  let report := plan.conclude written
  report.output.forM IO.println
  if let some failure := report.failure then failure.lines.forM IO.eprintln
  return report.exitCode

end HeapImage.CommandLine

open HeapImage.CommandLine in
/-- Carries out what the arguments ask for. -/
def main (args : List String) : IO UInt32 := do
  match Request.ofArguments args with
  | .error e =>
    IO.eprintln ("error: " ++ e.message)
    IO.eprintln ("For more information, try '" ++ Program.name ++ " --help'.")
    return 2
  | .ok (.print lines) =>
    lines.forM IO.println
    return 0
  | .ok (.run command) => return (← command.execute).toUInt32
