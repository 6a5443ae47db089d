import CMinusMinus.Code.Labels
import CMinusMinus.Code.Opcode
import CMinusMinus.Text.Numeral

/-!
# Programs of the stack machine

A program is a list of instructions and a table of labels. Arguments stay text: what `push` is given
is a literal or a name, and this is decided where the instruction is used. A label may stand past
the last instruction.

A program is written as text with one label or instruction a line. Labels stand at the left margin
before the instruction they name, instructions are indented.
-/

namespace CMinusMinus

/-- An operation code and its arguments. -/
structure Instruction where
  opcode : Opcode
  args : List String
deriving DecidableEq, Repr

/-- The operation code and the arguments with spaces between them. -/
def Instruction.text (i : Instruction) : String :=
  i.args.foldl (fun text arg => text ++ " " ++ arg) i.opcode.name

/-- Instructions and the labels that name positions among them. -/
structure Program where
  instructions : Array Instruction
  labels : Labels
deriving DecidableEq

namespace Program

/-- The name of the label where a run starts. -/
def entryName : String := "main"

/-- The position where a run starts. -/
def entry? (p : Program) : Option Nat :=
  p.labels.get? entryName

def size (p : Program) : Nat :=
  p.instructions.size

/-! ## Lines -/

/-- A line of a program: a label, or an instruction. -/
inductive Line where
  | label (name : String)
  | instruction (instruction : Instruction)
deriving DecidableEq, Repr

def Line.text : Line → String
  | label name => name ++ ":\n"
  | instruction i => "    " ++ i.text ++ "\n"

/-- The lines of the labels at a position, in table order. -/
def labelLines (p : Program) (position : Nat) : List Line :=
  (p.labels.entries.filter (·.2 == position)).map (.label ·.1)

/-- The lines of a program; labels past the end of the instructions have no line. -/
def lines (p : Program) : List Line :=
  (p.instructions.toList.zipIdx.flatMap fun (i, position) =>
    p.labelLines position ++ [.instruction i]) ++ p.labelLines p.size

def text (p : Program) : String :=
  p.lines.foldl (fun text line => text ++ line.text) ""

/-! ## Programs from lines -/

/-- The program with one more line; a label that is defined already stays where it is. -/
def push (p : Program) : Line → Program
  | .label name => { p with labels := p.labels.define name p.size }
  | .instruction i => { p with instructions := p.instructions.push i }

def empty : Program :=
  ⟨#[], .empty⟩

/-- The program that lines write. -/
def ofLines (lines : List Line) : Program :=
  lines.foldl push empty

end Program

end CMinusMinus
