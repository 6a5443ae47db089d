import CMinusMinus.Optimizer.Survivors

/-!
# Constant folding

One pass from the first instruction to the last keeps a shadow of the operand stack: for each value
what is known of it, with the top value first. An operator whose operands are constants pushed by the
last instructions that were kept takes their place as one `push` of its result. An operation without
a result, such as a division by zero, stays and fails when it is run.

Control can come to a label from anywhere, and to the instruction after a jump, a call or a return,
so nothing is known of the stack there. Where the shadow is too short, nothing is known of the value.
-/

namespace CMinusMinus

/-- What is known of a value on the operand stack. -/
inductive Shadow where
  /-- A constant, pushed by the kept instruction at a position. -/
  | constant (value : Int) (position : Nat)
  | unknown
deriving DecidableEq, Repr

/-- A folding pass part of the way through a program. -/
structure Folding where
  kept : Array Survivor
  shadow : List Shadow
  /-- How many operations were folded. -/
  folded : Nat

namespace Folding

def start : Folding := ⟨#[], [], 0⟩

/-- Keeps an instruction and takes `shadow` for what is known after it. -/
def keep (f : Folding) (i : Instruction) (origin : Nat) (shadow : List Shadow) : Folding :=
  { f with kept := f.kept.push ⟨i, origin⟩, shadow }

/-- Puts one `push` of a constant in the place of the last instructions kept, of which the first
`length` stay; `shadow` is what is known below the constant. -/
def fold (f : Folding) (length : Nat) (value : Int) (origin : Nat) (shadow : List Shadow) :
    Folding where
  kept := (f.kept.shrink length).push ⟨⟨.push, [Text.numeral value]⟩, origin⟩
  shadow := .constant value length :: shadow
  folded := f.folded + 1

/-! ## One instruction -/

/-- How many values an instruction that is never folded takes from the stack, and how many it
leaves. -/
def stackEffect (i : Instruction) : Nat × Nat :=
  match i.opcode with
  | .pop => if i.args.length = 2 then (2, 0) else (1, 0)
  | .print | .jz | .array => (1, 0)
  | .access => (1, 1)
  | .length => (0, 1)
  | _ => (0, 0)

/-- The constant result of an operator on the top two values, if they are constants pushed by the
last two of `length` kept instructions and there is a result. -/
def foldable? (length : Nat) (op : BinaryOp) (shadow : List Shadow) : Option Int :=
  match shadow with
  | .constant b q :: .constant a p :: _ =>
    if p + 2 = length ∧ q + 1 = length then (op.apply a b).toOption else none
  | _ => none

def binary (f : Folding) (op : BinaryOp) (i : Instruction) (origin : Nat) : Folding :=
  let rest := f.shadow.drop 2
  match foldable? f.kept.size op f.shadow with
  | some value => f.fold (f.kept.size - 2) value origin rest
  | none => f.keep i origin (.unknown :: rest)

def negation (f : Folding) (i : Instruction) (origin : Nat) : Folding :=
  match f.shadow with
  | .constant value position :: rest =>
    if position + 1 = f.kept.size then f.fold position (-value) origin rest
    else f.keep i origin (.unknown :: rest)
  | shadow => f.keep i origin (.unknown :: shadow.tail)

/-- What is known of a value that is pushed as the kept instruction at a position. -/
def ofPush (i : Instruction) (position : Nat) : Shadow :=
  match i.args.head?.bind Text.readInt? with
  | some value => .constant value position
  | none => .unknown

/-- What a pass does with an instruction at a position, to which a label may point. -/
def step (f : Folding) (labelled : Bool) (i : Instruction) (position : Nat) : Folding :=
  let f := if labelled then { f with shadow := [] } else f
  match i.opcode with
  | .binary op => f.binary op i position
  | .neg => f.negation i position
  | .push => f.keep i position (ofPush i f.kept.size :: f.shadow)
  | .jmp | .ret | .call => f.keep i position []
  | _ =>
    let (taken, left) := stackEffect i
    f.keep i position (List.replicate left .unknown ++ f.shadow.drop taken)

/-! ## Whole programs -/

def run (p : Program) : Folding :=
  p.instructions.toList.zipIdx.foldl
    (fun f entry => f.step (p.labels.marks entry.2) entry.1 entry.2) start

end Folding

/-- The program with its constant operations folded. -/
def Program.fold (p : Program) : Program :=
  .ofSurvivors (Folding.run p).kept p.labels

end CMinusMinus
