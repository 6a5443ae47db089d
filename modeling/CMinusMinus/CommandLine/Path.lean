/-!
# Paths

A path is a sequence of names with slashes between them; how many slashes does not matter. A single dot
names the directory that was reached, two dots the one above it. A slash at the end asks for a
directory. The bytecode of a source file stands beside it, under its name with an extension added. A
path that has the extension names bytecode itself.
-/

namespace CMinusMinus.CommandLine

/-! ## Names -/

/-- The names of a path, dots among them. -/
def pathSteps (path : String) : List String :=
  ((path.toList.splitOnP (· == '/')).map String.ofList).filter (· ≠ "")

/-- The names of a path without those that name the directory that was reached. -/
def pathNames (path : String) : List String :=
  (pathSteps path).filter (· ≠ ".")

/-- Whether a path starts at the root of all directories. -/
def startsAtRoot (path : String) : Bool :=
  path.toList.head? = some '/'

/-- Whether a path asks for a directory. -/
def endsInSlash (path : String) : Bool :=
  path.toList.getLast? = some '/'

/-- The names to follow in order to read: what has a slash after it is looked into. -/
def readingSteps (path : String) : List String :=
  if endsInSlash path then pathSteps path ++ ["."] else pathSteps path

/-- The names to follow in order to write: what has a slash after it at the end of a path is a
directory, which need not be there, in the one that the names before lead to. -/
def writingSteps (path : String) : List String :=
  if endsInSlash path then (pathSteps path).dropLast ++ ["."] else pathSteps path

/-! ## Extensions -/

/-- What follows the last dot of a file name; a name has no extension if that dot is its first
character or if it names the parent directory. -/
def nameExtension? (name : String) : Option String :=
  let stem := name.toList.reverse.dropWhile (· ≠ '.')
  if name = ".." ∨ stem.length ≤ 1 then none
  else some (String.ofList (name.toList.reverse.takeWhile (· ≠ '.')).reverse)

/-- The extension of the last name of a path. -/
def extension? (path : String) : Option String :=
  (pathNames path).getLast?.bind nameExtension?

/-- The extension of bytecode. -/
def bytecodeExtension : String := "cmmbin"

/-- The path of the bytecode of a file. -/
def bytecodePath (file : String) : String :=
  if extension? file = some bytecodeExtension then file else file ++ "." ++ bytecodeExtension

end CMinusMinus.CommandLine
