import CMinusMinus.Code.Opcode

/-!
# Events of a run

What an observer of a run is told, in order: every instruction before it is executed, every frame that
is entered or left, and every collection of garbage.
-/

namespace CMinusMinus

/-- Something that happens in a run. -/
inductive Event where
  /-- An instruction is about to be executed; `stack` values are on the stack and `frames` frames are
  live. -/
  | instruction (position : Nat) (opcode : Opcode) (stack frames : Nat)
  /-- A frame was entered at a label; there are now `depth` frames. -/
  | call (label : String) (depth : Nat)
  /-- A frame was left; there are now `depth` frames. -/
  | ret (depth : Nat)
  /-- Garbage was collected. -/
  | collection (freed live : Nat)
deriving DecidableEq, Repr

/-- The record of an event: a letter and numbers, without the number of frames of an instruction. -/
def Event.text : Event → String
  | instruction position opcode stack _ => s!"I {position} {opcode.name} {stack}"
  | call label depth => s!"C {label} {depth}"
  | ret depth => s!"R {depth}"
  | collection freed live => s!"G {freed} {live}"

end CMinusMinus
