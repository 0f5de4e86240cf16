import BorrowFlow.CommandLine.Run

/-! # The program

  Reads the files that the command names, runs it, and prints.
-/

namespace BorrowFlow.CommandLine

/-- Is this the system's number `n` for an error?  It is reported with either sign. -/
def isErrorNumber (n code : UInt32) : Bool := code == n || code == -n

/-- Why the system could not read a file.  A path that leads to the wrong kind of
    thing has one number for a folder and another for a file on the way. -/
def ReadFault.ofError : IO.Error → ReadFault
  | .noFileOrDirectory .. => .missing
  | .inappropriateType _ code details =>
    if isErrorNumber 20 code then .throughFile
    else if isErrorNumber 21 code then .isFolder
    else .other details
  | .invalidArgument _ code details =>
    if isErrorNumber 36 code then .tooLong else .other details
  | .permissionDenied _ _ details => .other details
  | .otherError _ details => .other details
  | e => .other (toString e)

/-- Read a source. -/
def readInput (p : Path) : IO Input := do
  try
    return ⟨p, .ok (← IO.FS.readBinFile p.render).toList⟩
  catch e =>
    return ⟨p, .error (.ofError e)⟩

/-- Print what a run leaves.  A run that breaks off says why. -/
def Printed.emit (p : Printed) : IO UInt32 := do
  IO.print p.stdout
  IO.eprint p.stderr
  match p.ending with
  | .exit code => return code.toUInt32
  | .broken f =>
    IO.eprintln f.message
    return 1

end BorrowFlow.CommandLine

open BorrowFlow.CommandLine in
/-- Run the checker on the arguments of the program. -/
def main (args : List String) : IO UInt32 := do
  match Command.parse args with
  | .error h => h.print.emit
  | .ok c => (c.run (← c.sources.mapM readInput)).emit
