import CMinusMinus.Machine.Step
import CMinusMinus.Trace.Event

/-!
# Runs

A run executes instructions from the entry on, until the outermost frame returns, control leaves the
program, or a fault arises. Garbage is collected between instructions: after every instruction that
moves values on the stack a counter is raised, and once it reaches the interval of the meter the
collector is run and the counter starts again.

Every round of a run, a *turn*, tells what happened in it. An observer folds these events into a state
of its own, so what is observed cannot change the run.
-/

namespace CMinusMinus

/-! ## Collection -/

namespace State

/-- Whether an instruction counts towards the next collection. -/
def isCounted : Opcode → Bool
  | .push | .pop | .ret => true
  | _ => false

/-- The state with one more counted instruction. -/
def count (s : State) : State :=
  { s with sinceCollection := s.sinceCollection + 1 }

/-- Whether the collector is to be run. -/
def isCollectionDue (s : State) : Bool :=
  s.sinceCollection ≥ s.meter.interval

/-- Frees every value that cannot be reached from the roots, and gives the number of freed slots. -/
def collect (s : State) : Nat × State :=
  let marks := s.heap.mark s.roots.toArray
  let garbage := s.heap.garbage marks
  let freed := garbage.length
  (freed, { s with
    heap := s.heap.release garbage
    meter := s.meter.free freed
    frame := s.frame.prune marks
    callers := s.callers.map (·.prune marks)
    sinceCollection := 0
    collections := s.collections + 1 })

/-- Counts an instruction that was executed, and runs the collector if it is due. -/
def afterInstruction (s : State) (opcode : Opcode) : List Event × State :=
  let s := if isCounted opcode then s.count else s
  if s.isCollectionDue then
    let (freed, s) := s.collect
    ([.collection freed s.heap.live], s)
  else
    ([], s)

end State

/-! ## Turns -/

/-- How a run ends. -/
inductive Ending where
  | completed
  | failed (fault : Fault)
deriving DecidableEq, Repr

/-- What one round of a run does; a round without an ending is followed by another one. -/
structure Turn where
  events : List Event
  state : State
  ending : Option Ending

/-- What an observer is told of the control that an instruction passes on, to a state with `depth`
frames. -/
def Control.events (control : Control) (depth : Nat) : List Event :=
  match control with
  | .enter label _ => [.call label depth]
  | .leave _ => [.ret depth]
  | .next | .jump _ | .halt => []

def Control.apply (control : Control) (s : State) : State :=
  match control with
  | .next => { s with position := s.position + 1 }
  | .jump target | .enter _ target | .leave target => { s with position := target }
  | .halt => s

/-- Whether a run ends with an instruction. -/
def Control.ending? : Control → Option Ending
  | .halt => some .completed
  | _ => none

/-- One round: the next instruction and the collection after it. -/
def Program.turn (p : Program) (s : State) : Turn :=
  match p.instructions[s.position]? with
  | none => ⟨[], s, some .completed⟩
  | some i =>
    let position := s.position
    let first := Event.instruction position i.opcode s.stack.height s.depth
    match (i.execute p).run s with
    | .error cause s => ⟨[first], s, some (.failed ⟨cause, some position⟩)⟩
    | .ok control s =>
      let passed := control.events s.depth
      let (collected, s) := s.afterInstruction i.opcode
      ⟨first :: (passed ++ collected), control.apply s, control.ending?⟩

/-! ## Whole runs -/

/-- Where a run stands, and what its observer made of it. -/
structure Run (σ : Type) where
  /-- Nothing if the run has not ended. -/
  ending : Option Ending
  state : State
  observed : σ

namespace Program

def runFrom {σ : Type} (p : Program) (observe : σ → Event → σ) :
    Nat → State → σ → Run σ
  | 0, s, observed => ⟨none, s, observed⟩
  | turns + 1, s, observed =>
    let turn := p.turn s
    let observed := turn.events.foldl observe observed
    match turn.ending with
    | some ending => ⟨some ending, turn.state, observed⟩
    | none => p.runFrom observe turns turn.state observed

def initial (p : Program) (entry : Nat) (meter : Meter) : State :=
  .initial entry p.size meter

/-- At most `turns` rounds of a run from the entry. -/
def run {σ : Type} (p : Program) (meter : Meter) (turns : Nat) (observe : σ → Event → σ)
    (start : σ) : Run σ :=
  match p.entry? with
  | some entry => p.runFrom observe turns (p.initial entry meter) start
  | none =>
    ⟨some (.failed ⟨.unresolvedLabel entryName, none⟩), p.initial 0 meter, start⟩

end Program

/-! ## What a run leaves -/

/-- What a completed run leaves behind. -/
structure Outcome where
  /-- The operand stack, the lowest value first. -/
  stack : List Object
  /-- The variables of the outermost frame, in the order of their names. -/
  globals : List (String × Object)
  stats : HeapStats

/-- The variables of a frame with their values, in the order of their names. -/
def Heap.variables (heap : Heap) (bindings : Bindings) : Except Handle (List (String × Object)) :=
  (bindings.mergeSort fun a b => a.1 ≤ b.1).mapM fun binding => do
    return (binding.1, ← heap.object binding.2)

/-- What a state leaves behind when a run ends in it. -/
def State.outcome (s : State) : Except Fault Outcome :=
  let read : Except Handle Outcome := do
    let stack ← s.stack.items.reverse.mapM s.heap.object
    let globals ← s.heap.variables s.outermost.bindings
    return ⟨stack, globals, s.heap.stats s.collections⟩
  read.mapError fun h => ⟨.dangling h, none⟩

/-- The top of the final stack. -/
def Outcome.top? (outcome : Outcome) : Option Object :=
  outcome.stack.getLast?

/-- What a run leaves behind, or its fault; nothing if it has not ended. -/
def Run.outcome? {σ : Type} (run : Run σ) : Option (Except Fault Outcome) :=
  run.ending.map fun
    | .completed => run.state.outcome
    | .failed fault => .error fault

end CMinusMinus
