import CMinusMinus.Graph.Search
import CMinusMinus.Optimizer.Survivors

/-!
# Removal of unreachable code

An instruction survives if it can be reached from the entry. A return has no successor, a jump has
its target, a conditional jump and a call have their target and the next instruction, and every other
instruction has the next one. A position past the last instruction has none. The targets of reachable
instructions must be defined; labels of removed instructions stay in the table.
-/

namespace CMinusMinus

/-! ## Errors -/

/-- Why a program cannot be optimized. -/
inductive OptimizeError where
  | missingEntry
  | unresolvedLabel (label : String) (position : Nat)
deriving DecidableEq, Repr

def OptimizeError.message : OptimizeError → String
  | missingEntry => s!"cannot optimize: entry label '{Program.entryName}' is not defined"
  | unresolvedLabel label position =>
    s!"cannot optimize: instruction {position} targets undefined label '{label}'"

/-! ## Control flow -/

namespace Program

/-- The position that the first argument of an instruction names. -/
def target (p : Program) (i : Instruction) (position : Nat) : Except OptimizeError Nat :=
  let label := i.args.headD ""
  match p.labels.get? label with
  | some found => .ok found
  | none => .error (.unresolvedLabel label position)

/-- The positions where control can be after an instruction, the next one first. -/
def successors (p : Program) (position : Nat) : Except OptimizeError (List Nat) :=
  match p.instructions[position]? with
  | none => .ok []
  | some i =>
    match i.opcode with
    | .ret => .ok []
    | .jmp => (p.target i position).map ([·])
    | .jz | .call => (p.target i position).map ([position + 1, ·])
    | _ => .ok [position + 1]

/-- Marks the instructions that can be reached from the entry. -/
def reachable (p : Program) : Except OptimizeError (Array Bool) :=
  match p.entry? with
  | none => .error .missingEntry
  | some entry => Graph.search p.successors (Array.replicate p.size false) [entry]

/-! ## The pass -/

/-- The instructions with a mark. -/
def marked (p : Program) (marks : Array Bool) : Array Survivor :=
  p.instructions.zipIdx.filterMap fun (i, position) =>
    if marks[position]? = some true then some ⟨i, position⟩ else none

/-- The program without its unreachable instructions. -/
def prune (p : Program) : Except OptimizeError Program :=
  p.reachable.map fun marks => .ofSurvivors (p.marked marks) p.labels

end Program

end CMinusMinus
