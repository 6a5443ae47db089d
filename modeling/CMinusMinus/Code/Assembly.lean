import CMinusMinus.Code.Program
import CMinusMinus.Text.Blank

/-!
# Reading programs

A line holds a label, an instruction, or nothing. A line that ends in a colon is a label; otherwise
the words of the line are the operation code and its arguments. Blank lines and lines that start with
`#` or `//` hold nothing. What a line holds does not depend on the other lines, except that no label
may be defined twice; at the end the entry label must be defined.
-/

namespace CMinusMinus

/-! ## Errors -/

/-- Why a text is not a program. -/
inductive LoadError.Cause where
  | unknownOpcode (word : String)
  | arity (opcode : Opcode) (found : Nat)
  | badArgument (opcode : Opcode) (arg : String)
  | malformedLabel (line : String)
  | duplicateLabel (name : String)
  | missingEntry
deriving DecidableEq, Repr

def LoadError.Cause.message : LoadError.Cause → String
  | unknownOpcode word => s!"unknown instruction '{word}'"
  | arity opcode found => s!"'{opcode.name}' takes {opcode.expectedArguments} but got {found}"
  | badArgument opcode arg => s!"invalid argument '{arg}' for '{opcode.name}'"
  | malformedLabel line => s!"malformed label '{line}'"
  | duplicateLabel name => s!"label '{name}' is defined more than once"
  | missingEntry => s!"entry label '{Program.entryName}' is not defined"

/-- An error and the line it is in, counted from one; the missing entry is in no line. -/
structure LoadError where
  line : Option Nat
  cause : LoadError.Cause
deriving DecidableEq, Repr

def LoadError.message (e : LoadError) : String :=
  match e.line with
  | some number => s!"line {number}: {e.cause.message}"
  | none => e.cause.message

/-! ## Instructions -/

namespace Instruction

def storeMarker : String := "arr"

/-- The first argument of the wrong form in an instruction with a right number of arguments. -/
def badArgument? (i : Instruction) : Option String :=
  match i.opcode, i.args with
  | .ret, [count] => if (Text.readCount? count).isSome then none else some count
  | .push, [arg] => if Text.isNumeral arg || Text.isIdentifier arg then none else some arg
  | .pop, [marker, name] =>
    if marker ≠ storeMarker then some marker else if Text.isIdentifier name then none else some name
  | .pop, [name] | .array, [name] | .access, [name] | .length, [name] =>
    if Text.isIdentifier name then none else some name
  | _, _ => none

/-- Checks the number of the arguments, then their form. -/
def validate (i : Instruction) : Except LoadError.Cause Unit :=
  if !i.opcode.accepts i.args.length then
    .error (.arity i.opcode i.args.length)
  else
    match i.badArgument? with
    | some arg => .error (.badArgument i.opcode arg)
    | none => .ok ()

def ofWords (words : List String) : Except LoadError.Cause Instruction := do
  let word := words.headD ""
  match Opcode.ofName? word with
  | none => .error (.unknownOpcode word)
  | some opcode =>
    let i : Instruction := ⟨opcode, words.tail⟩
    i.validate
    return i

end Instruction

/-! ## Lines -/

namespace Program

def Line.isComment : List Char → Bool
  | [] => true
  | '#' :: _ => true
  | '/' :: '/' :: _ => true
  | _ => false

/-- Reads the label that a trimmed line without its last colon names. -/
def Line.ofLabel (cs : List Char) : Except LoadError.Cause Line :=
  let name := Text.trimEnd cs
  if name.isEmpty || name.any Text.isBlank then
    .error (.malformedLabel (String.ofList (cs ++ [':'])))
  else
    .ok (.label (String.ofList name))

def Line.read? (raw : List Char) : Except LoadError.Cause (Option Line) :=
  let cs := Text.trim raw
  if Line.isComment cs then
    .ok none
  else if cs.getLast? = some ':' then
    (Line.ofLabel cs.dropLast).map some
  else
    (Instruction.ofWords ((Text.words cs).map String.ofList)).map (some <| .instruction ·)

def add (p : Program) : Option Line → Except LoadError.Cause Program
  | none => .ok p
  | some (.label name) =>
    if p.labels.contains name then .error (.duplicateLabel name) else .ok (p.push (.label name))
  | some (.instruction i) => .ok (p.push (.instruction i))

def readLine (p : Program) (raw : List Char) : Except LoadError.Cause Program := do
  p.add (← Line.read? raw)

/-! ## Texts -/

/-- Reads lines, the first of which has the given number. -/
def readLines (p : Program) (number : Nat) : List (List Char) → Except LoadError Program
  | [] => .ok p
  | raw :: rest =>
    match p.readLine raw with
    | .ok p => p.readLines (number + 1) rest
    | .error cause => .error ⟨some number, cause⟩

/-- Reads a program; its entry label must be defined. -/
def load (text : String) : Except LoadError Program := do
  let p ← empty.readLines 1 (Text.lines text.toList)
  if p.entry?.isSome then return p else throw ⟨none, .missingEntry⟩

end Program

end CMinusMinus
