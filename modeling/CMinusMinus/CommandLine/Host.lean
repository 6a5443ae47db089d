import CMinusMinus.Notice

/-!
# Hosts

What a command needs of the system that it is run on: files, two streams of text, a log, and a clock.
Commands are written for any host. One host is the system itself; another is a directory that is held in
memory.
-/

namespace CMinusMinus.CommandLine

/-- Why a file cannot be read or written. -/
inductive FileError where
  | notFound
  | notDirectory
  | isDirectory
  | nameTooLong
  | notText
  | other (description : String)
deriving DecidableEq, Repr

def FileError.message : FileError → String
  | notFound => "No such file or directory (os error 2)"
  | notDirectory => "Not a directory (os error 20)"
  | isDirectory => "Is a directory (os error 21)"
  | nameTooLong => "File name too long (os error 36)"
  | notText => "stream did not contain valid UTF-8"
  | other description => description

/-- What commands ask of the system; actions of the host have type `m`. -/
structure Host (m : Type → Type) where
  /-- Reads a file. -/
  read : String → m (Except FileError String)
  /-- Writes a file, in the place of what it held. -/
  write : String → String → m (Except FileError Unit)
  /-- Writes to the standard output. -/
  print : String → m Unit
  /-- Writes to the standard error. -/
  report : String → m Unit
  /-- Tells the log of a warning. -/
  tell : Notice → m Unit
  /-- Computes a value, and says how long that took. -/
  timed {α : Type} : (Unit → α) → m (α × String)

/-- Tells the log of warnings, one after the other. -/
def Host.tellAll {m : Type → Type} [Monad m] (host : Host m) (notices : List Notice) : m Unit :=
  notices.forM host.tell

end CMinusMinus.CommandLine
