import CMinusMinus.Code.Program

/-!
# Programs from what a pass keeps

A pass keeps some instructions of a program and may put one in the place of several. Each instruction
it keeps has an origin, the position of the old instruction that it stands for, and origins rise. A
label moves to the number of kept instructions whose origin is below its old position, so it stands
before the first instruction kept from there on.
-/

namespace CMinusMinus

/-- An instruction that a pass keeps, and the position of the old one that it stands for. -/
structure Survivor where
  instruction : Instruction
  origin : Nat
deriving DecidableEq, Repr

/-- The number of entries below `bound` among those from `low` to `high`, and all before them, in an
array that rises; each round halves the distance. -/
def countBelow (origins : Array Nat) (bound low high : Nat) (inside : high ≤ origins.size) : Nat :=
  if h : low < high then
    let middle := (low + high) / 2
    have : middle < origins.size := by omega
    if origins[middle] < bound then
      countBelow origins bound (middle + 1) high inside
    else
      countBelow origins bound low middle (by omega)
  else
    low
termination_by high - low

/-- The program of what a pass keeps, with the labels of the old program moved along. -/
def Program.ofSurvivors (survivors : Array Survivor) (labels : Labels) : Program :=
  let origins := survivors.map (·.origin)
  ⟨survivors.map (·.instruction),
    labels.remap fun position => countBelow origins position 0 origins.size (Nat.le_refl _)⟩

end CMinusMinus
