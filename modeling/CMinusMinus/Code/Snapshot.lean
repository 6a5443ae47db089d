import CMinusMinus.Code.Program

/-!
# Binary snapshots

A snapshot is a sequence of bytes. Numbers are written in groups of seven bits, the lowest first, with
the high bit set on every byte but the last. A text is its length in bytes and its UTF-8 bytes, a list
its length and its items. A program is the list of its instructions, each the number of its operation
and the list of its arguments, and then the list of its labels, each a name and a position.

A reader takes from its input what the writer wrote and leaves the rest. An input that ends too early,
a number with too many bits, bytes that are no UTF-8 and an unknown operation are errors. A label that
occurs again keeps its place and takes the last position; nothing else is checked.
-/

namespace CMinusMinus.Snapshot

/-! ## Errors -/

/-- Why bytes are no snapshot. -/
inductive Error where
  | endOfInput
  | longNumber
  | invalidText
  | unknownOpcode
deriving DecidableEq, Repr

def Error.message : Error → String
  | endOfInput => "Hit the end of buffer, expected more data"
  | longNumber => "Found a varint that didn't terminate. Is the usize too big for this platform?"
  | invalidText => "Tried to parse invalid utf-8"
  | unknownOpcode => "Serde Deserialization Error"

/-- Reads a value from the front of a list of bytes. -/
abbrev Reader := StateT (List UInt8) (Except Error)

/-! ## Numbers -/

def number (n : Nat) : List UInt8 :=
  if n < 128 then [.ofNat n] else .ofNat (n % 128 + 128) :: number (n / 128)
termination_by n

def readByte : Reader UInt8 := fun
  | byte :: rest => .ok (byte, rest)
  | [] => .error .endOfInput

/-- Reads at most `bytes` bytes of a number; the last of them may be at most `last`. -/
def readGroups (last : Nat) : Nat → Reader Nat
  | 0 => throw .longNumber
  | bytes + 1 => do
    let byte := (← readByte).toNat
    if 128 ≤ byte then
      return byte - 128 + 128 * (← readGroups last bytes)
    else if bytes = 0 ∧ last < byte then
      throw .longNumber
    else
      return byte

def readNumber : Reader Nat :=
  readGroups 1 10

def readShort : Reader Nat :=
  readGroups 15 5

/-! ## Texts -/

def text (s : String) : List UInt8 :=
  let bytes := s.toUTF8.data.toList
  number bytes.length ++ bytes

def readBytes (count : Nat) : Reader (List UInt8) := fun input =>
  let bytes := input.take count
  if bytes.length < count then .error .endOfInput else .ok (bytes, input.drop count)

def readText : Reader String := do
  let bytes ← readBytes (← readNumber)
  match String.fromUTF8? ⟨bytes.toArray⟩ with
  | some s => return s
  | none => throw .invalidText

/-! ## Lists -/

/-- The bytes of a list, whose items `item` writes. -/
def list {α : Type} (item : α → List UInt8) (items : List α) : List UInt8 :=
  number items.length ++ items.flatMap item

/-- Reads a number of items after those already `read`. -/
def readItems {α : Type} (item : Reader α) : Nat → Array α → Reader (Array α)
  | 0, read => return read
  | count + 1, read => do readItems item count (read.push (← item))

def readList {α : Type} (item : Reader α) : Reader (Array α) := do
  readItems item (← readNumber) #[]

/-! ## Programs -/

def instruction (i : Instruction) : List UInt8 :=
  number i.opcode.number ++ list text i.args

def readInstruction : Reader Instruction := do
  match Opcode.ofNumber? (← readShort) with
  | some opcode => return ⟨opcode, (← readList readText).toList⟩
  | none => throw .unknownOpcode

def label (entry : String × Nat) : List UInt8 :=
  text entry.1 ++ number entry.2

def readLabel : Reader (String × Nat) := do
  let name ← readText
  return (name, ← readNumber)

def readProgram : Reader Program := do
  let instructions ← readList readInstruction
  let labels ← readList readLabel
  return ⟨instructions, labels.foldl (fun table entry => table.set entry.1 entry.2) .empty⟩

end CMinusMinus.Snapshot

namespace CMinusMinus.Program

def dump (p : Program) : List UInt8 :=
  Snapshot.list Snapshot.instruction p.instructions.toList ++
    Snapshot.list Snapshot.label p.labels.entries

/-- Reads the program at the front of a list of bytes; the bytes after it do not matter. -/
def restore (bytes : List UInt8) : Except Snapshot.Error Program :=
  (Snapshot.readProgram bytes).map Prod.fst

end CMinusMinus.Program
