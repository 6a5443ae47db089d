import CMinusMinus.CommandLine.Command
import CMinusMinus.Text.Duration

/-!
# The program

Commands on the system's own files, streams and clock.
-/

namespace CMinusMinus.CommandLine

/-- The number of an error of the system; some calls give it with a minus sign. -/
def systemErrorNumber (code : UInt32) : Nat :=
  if code.toNat < 0x80000000 then code.toNat else 0x100000000 - code.toNat

/-- The error of a file that an error of the system stands for. -/
def FileError.ofSystem : IO.Error → FileError
  | .noFileOrDirectory _ _ _ => .notFound
  | .inappropriateType _ code details =>
    match systemErrorNumber code with
    | 20 => .notDirectory
    | 21 => .isDirectory
    | number => .other s!"{details} (os error {number})"
  | .invalidArgument _ code details =>
    match systemErrorNumber code with
    | 36 => .nameTooLong
    | number => .other s!"{details} (os error {number})"
  | .permissionDenied _ code details => .other s!"{details} (os error {systemErrorNumber code})"
  | error => .other error.toString

def readSystemFile (path : String) : IO (Except FileError String) := do
  match ← (IO.FS.readBinFile path).toBaseIO with
  | .error error => return .error (.ofSystem error)
  | .ok bytes =>
    match String.fromUTF8? bytes with
    | some text => return .ok text
    | none => return .error .notText

def writeSystemFile (path text : String) : IO (Except FileError Unit) := do
  return (← (IO.FS.writeFile path text).toBaseIO).mapError .ofSystem

/-- Computes a value and measures how long that takes. -/
def timedBySystem {α : Type} (compute : Unit → α) : IO (α × String) := do
  let start ← IO.monoNanosNow
  let value ← IO.lazyPure compute
  let stop ← IO.monoNanosNow
  return (value, Text.duration (stop - start))

def writeStream (stream : IO.FS.Stream) (text : String) : IO Unit := do
  stream.putStr text
  stream.flush

/-- The host with the system's files, streams and clock. The log is written with the errors; the time of day is
not known. -/
def systemHost (output errors : IO.FS.Stream) : Host IO where
  read := readSystemFile
  write := writeSystemFile
  print := writeStream output
  report := writeStream errors
  tell notice := writeStream errors (notice.logLine none)
  timed := timedBySystem

/-- More rounds than a run can have in the lifetime of a machine. -/
def unboundedTurns : Nat := 0x4000000000000000

end CMinusMinus.CommandLine

open CMinusMinus.CommandLine in
def main (arguments : List String) : IO UInt32 := do
  let host := systemHost (← IO.getStdout) (← IO.getStderr)
  return (← execute host unboundedTurns arguments).toUInt32
