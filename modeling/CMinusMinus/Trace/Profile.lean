import CMinusMinus.Text.Column
import CMinusMinus.Text.Numeral
import CMinusMinus.Text.Percent
import CMinusMinus.Trace.Event

/-!
# Profiles

A profile counts what happens in a run: the executed instructions by operation, calls, collections and
freed slots, and the greatest depth of frames. Its report lists the operations from the most to the
least frequent; those that occur equally often stand in the order of their names.

Counters have 64 bits. One event can tell of any number of freed slots, so their sum is kept below the
bound of such a counter; the other counters grow by one with an event, and there are never so many events
that one of them would go round.
-/

namespace CMinusMinus

/-- What was counted in a run. -/
structure Profile where
  /-- The operations that occurred, each once, with their numbers. -/
  counts : List (Opcode × Nat)
  instructions : Nat
  maxDepth : Nat
  calls : Nat
  collections : Nat
  /-- The freed slots; their number is kept below the bound of counts. -/
  freed : Nat
deriving DecidableEq, Repr

namespace Profile

def start : Profile := ⟨[], 0, 0, 0, 0, 0⟩

def increment (opcode : Opcode) : List (Opcode × Nat) → List (Opcode × Nat)
  | [] => [(opcode, 1)]
  | (other, n) :: rest =>
    if other = opcode then (other, n + 1) :: rest else (other, n) :: increment opcode rest

def observe (p : Profile) : Event → Profile
  | .instruction _ opcode _ frames =>
    { p with
      counts := increment opcode p.counts
      instructions := p.instructions + 1
      maxDepth := max p.maxDepth frames }
  | .call _ depth => { p with calls := p.calls + 1, maxDepth := max p.maxDepth depth }
  | .ret _ => p
  | .collection freed _ =>
    { p with
      collections := p.collections + 1
      freed := (p.freed + freed) % Text.countBound }

/-! ## Reports -/

/-- Whether an operation is listed before another or together with it. -/
def listedBefore (a b : Opcode × Nat) : Bool :=
  a.2 > b.2 || (a.2 == b.2 && a.1.name ≤ b.1.name)

/-- The operations with their numbers, in the order of a report. -/
def ranking (p : Profile) : List (Opcode × Nat) :=
  p.counts.mergeSort listedBefore

def line (p : Profile) (entry : Opcode × Nat) : String :=
  let share := Text.alignRight 5 (Text.percent entry.2 p.instructions)
  s!"  {Text.alignLeft 20 entry.1.name} {Text.alignRight 10 entry.2.repr}  ({share}%)\n"

def report (p : Profile) : String :=
  "=== VM Profiling Report ===\n" ++
    s!"Total instructions: {p.instructions}\n" ++
    s!"Total calls:        {p.calls}\n" ++
    s!"Max call depth:     {p.maxDepth}\n" ++
    s!"Collections:        {p.collections}\n" ++
    s!"Slots freed:        {p.freed}\n" ++
    "\n--- Opcode Frequency ---\n" ++
    String.join (p.ranking.map p.line)

end Profile

end CMinusMinus
