import CMinusMinus.CommandLine.Host
import CMinusMinus.CommandLine.Path

/-!
# Directories in memory

The working directory holds files under names from it; names lead to a directory if some file lies below
them. Nothing is known of what lies outside, but that the directories above and the root of all are there.
There are no links, and every file may be read and written. A path is followed name by name, and every name
must be looked up in a directory; the first that cannot be is the one that a failure is about. What is
written in a place where no directory is, or under the name of one, is refused. A write that is not refused
is done as a whole, since there is always room; reading the file that was just written gives what was
written.
-/

namespace CMinusMinus.CommandLine

/-! ## Places -/

/-- Where the names of a place are followed from. -/
inductive Anchor where
  | root
  /-- The directory so many levels above the working directory. -/
  | above (levels : Nat)
deriving DecidableEq, Repr

/-- What a path leads to: names from a directory that is always there, dots not among them. -/
structure Place where
  anchor : Anchor
  names : List String
deriving DecidableEq, Repr

namespace Place

def working : Place := ⟨.above 0, []⟩

def root : Place := ⟨.root, []⟩

/-- The place that a path starts at. -/
def start (path : String) : Place :=
  if startsAtRoot path then root else working

/-- What has a name in a place. -/
def child (place : Place) (name : String) : Place :=
  { place with names := place.names ++ [name] }

/-- The directory that a place lies in; the root lies in itself. -/
def parent (place : Place) : Place :=
  if place.names.isEmpty then
    match place.anchor with
    | .root => place
    | .above levels => ⟨.above (levels + 1), []⟩
  else { place with names := place.names.dropLast }

/-- Whether a place lies below another. -/
def isBelow (place other : Place) : Bool :=
  place.anchor = other.anchor && other.names.length < place.names.length &&
    other.names.isPrefixOf place.names

/-- A place in the working directory. -/
def ofNames (names : List String) : Place := ⟨.above 0, names⟩

/-- Whether a place lies in the working directory. -/
def isInside (place : Place) : Bool :=
  place.anchor = .above 0

/-- The path of a place from its anchor. -/
def path (place : Place) : String :=
  "/".intercalate place.names

end Place

/-! ## Directories -/

/-- Files by their places, with their bytes. -/
structure Directory where
  files : List (Place × List UInt8)
deriving DecidableEq

namespace Directory

/-- The directory of files under the given paths. -/
def ofList (files : List (String × List UInt8)) : Directory :=
  ⟨files.map fun file => (.ofNames (pathNames file.1), file.2)⟩

def get? (d : Directory) (place : Place) : Option (List UInt8) :=
  d.files.lookup place

/-- Whether a place is a directory. -/
def isDirectory (d : Directory) (place : Place) : Bool :=
  place.names.isEmpty || d.files.any fun file => file.1.isBelow place

/-- The directory with other bytes in a file, which is new if it was not there. -/
def put (d : Directory) (place : Place) (bytes : List UInt8) : Directory :=
  if (d.get? place).isSome then
    ⟨d.files.map fun file => if file.1 = place then (place, bytes) else file⟩
  else
    ⟨d.files ++ [(place, bytes)]⟩

/-! ## Following paths -/

/-- The most bytes that a name can have. -/
def nameLimit : Nat := 255

/-- The most bytes that a path can have. -/
def pathLimit : Nat := 4095

/-- What a name leads to in a place, which must be a directory. -/
def enter (d : Directory) (place : Place) (name : String) : Except FileError Place :=
  if d.isDirectory place then
    if name = "." then .ok place
    else if name = ".." then .ok place.parent
    else if nameLimit < name.utf8ByteSize then .error .nameTooLong
    else .ok (place.child name)
  else .error (if (d.get? place).isSome then .notDirectory else .notFound)

/-- The place that names lead to from where a path starts; an empty path leads nowhere. -/
def locate (d : Directory) (path : String) (steps : List String) : Except FileError Place :=
  if path = "" then .error .notFound
  else if pathLimit < path.utf8ByteSize then .error .nameTooLong
  else steps.foldlM d.enter (.start path)

/-! ## Files -/

def readText (d : Directory) (path : String) : Except FileError String := do
  let place ← d.locate path (readingSteps path)
  if d.isDirectory place then
    throw .isDirectory
  match d.get? place with
  | none => throw .notFound
  | some bytes =>
    match String.fromUTF8? ⟨bytes.toArray⟩ with
    | some text => return text
    | none => throw .notText

def writeText (d : Directory) (path text : String) : Except FileError Directory := do
  let place ← d.locate path (writingSteps path)
  if d.isDirectory place then
    throw .isDirectory
  return d.put place text.toUTF8.data.toList

/-- The files of the working directory that are new or hold other bytes than earlier. -/
def changes (earlier later : Directory) : List (String × List UInt8) :=
  (later.files.filter fun file => file.1.isInside && earlier.get? file.1 ≠ some file.2).map fun file =>
    (file.1.path, file.2)

end Directory

/-! ## The host -/

/-- A directory and what was written to the two streams. -/
structure Console where
  directory : Directory
  output : String
  errors : String

/-- A host with files in memory. Every computation takes a time that is written `duration`; what the log makes of
a warning goes to the errors, which is nothing where warnings are off. -/
def Directory.host (duration : String) (log : Notice → String := fun _ => "") : Host (StateM Console) where
  read path := fun console => (console.directory.readText path, console)
  write path text := fun console =>
    match console.directory.writeText path text with
    | .ok directory => (.ok (), { console with directory })
    | .error error => (.error error, console)
  print text := fun console => ((), { console with output := console.output ++ text })
  report text := fun console => ((), { console with errors := console.errors ++ text })
  tell notice := fun console => ((), { console with errors := console.errors ++ log notice })
  timed compute := fun console => ((compute (), duration), console)

end CMinusMinus.CommandLine
