/-
Gimbal/Main.lean

The command line: runs the command on the files of the machine and brings its
report to the outside. Everything that is decided is decided in `Command.run`.
-/
import Gimbal.Binary64.Decimal
import Gimbal.Command.Run

namespace Gimbal

/-- The number and the words that the system has for an error. -/
def systemError : IO.Error → FileError
  | .alreadyExists _ code text | .invalidArgument _ code text |
      .permissionDenied _ code text
  | .resourceExhausted _ code text | .inappropriateType _ code text |
      .noSuchThing _ code text
  | .interrupted _ code text | .noFileOrDirectory _ code text
  | .otherError code text | .resourceBusy code text |
      .resourceVanished code text
  | .unsupportedOperation code text | .hardwareFault code text |
      .unsatisfiedConstraints code text
  | .illegalOperation code text | .protocolError code text |
      .timeExpired code text =>
    .refused code.toNat text
  | .unexpectedEof => .notText
  | .userError text => .refused 0 text

/-- The files of the machine. -/
def machineFiles : Files IO where
  read path := do
    try
      match String.fromUTF8? (← IO.FS.readBinFile path) with
      | some text => return .ok text
      | none => return .error .notText
    catch e =>
      return .error (systemError e)
  write path text := do
    try
      IO.FS.writeFile path text
      return .ok ()
    catch e =>
      return .error (systemError e)

end Gimbal

open Gimbal in
def main (args : List String) : IO UInt32 := do
  match Options.parse? args with
  | none =>
    IO.eprintln
      "usage: rzxcz [--table FILE] [--save-table FILE] [-s SEED] [-v] [--check] [CIRCUIT]"
    return usageExitCode.toUInt32
  | some o =>
    let report : Report Float ← Command.run machineFiles o
    IO.print report.output
    if o.verbose then
      for line in report.events.filterMap Event.line? do IO.eprintln line
    for line in report.errorLine? do IO.eprintln line
    return report.exitCode.toUInt32
