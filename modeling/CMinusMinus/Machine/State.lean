import CMinusMinus.Machine.Fault
import CMinusMinus.Machine.Rendering
import CMinusMinus.Machine.Stack

/-!
# States of the machine

The operand stack is shared by all frames; each frame has its own variables, a list of the values that
it allocated or was handed by a callee, and the position where its caller goes on. An action changes
the state or stops with a cause; what it changed before it stopped stays changed, so the counts of a
stopped run can be told.
-/

namespace CMinusMinus

/-! ## Frames -/

/-- Variables and their values; no variable occurs twice. -/
abbrev Bindings := List (String × Handle)

/-- Binds a variable, in the place of its earlier binding. -/
def Bindings.bind (bindings : Bindings) (name : String) (h : Handle) : Bindings :=
  (name, h) :: bindings.filter (·.1 ≠ name)

/-- A function that was entered and not left. -/
structure Frame where
  bindings : Bindings
  /-- The values that the frame allocated or was handed by a callee. -/
  owned : List Handle
  returnAddress : Nat
deriving DecidableEq

/-- A frame without variables. -/
def Frame.entered (returnAddress : Nat) : Frame :=
  ⟨[], [], returnAddress⟩

/-- The frame without the values that have no mark. -/
def Frame.prune (frame : Frame) (marks : Array Bool) : Frame :=
  { frame with owned := frame.owned.filter fun h => Heap.isMarked marks h.index }

/-! ## States -/

/-- The state of a run between two instructions. -/
structure State where
  heap : Heap
  meter : Meter
  /-- The operand stack. -/
  stack : Stack Handle
  /-- The frame of the current function. -/
  frame : Frame
  /-- The frames of the calling functions, the innermost on top. -/
  callers : Stack Frame
  /-- The instruction to be executed next. -/
  position : Nat
  /-- What was printed so far. -/
  output : String
  /-- How many counted instructions there were since the last collection. -/
  sinceCollection : Nat
  /-- How many collections there were. -/
  collections : Nat
deriving DecidableEq

namespace State

def initial (entry size : Nat) (meter : Meter) : State where
  heap := .empty
  meter
  stack := .empty
  frame := .entered size
  callers := .empty
  position := entry
  output := ""
  sinceCollection := 0
  collections := 0

def depth (s : State) : Nat :=
  s.callers.height + 1

/-- Every frame, the current one first. -/
def frames (s : State) : List Frame :=
  s.frame :: s.callers.items

def outermost (s : State) : Frame :=
  s.callers.items.getLastD s.frame

/-- The handles that a collection starts from: the stack and the variables of all frames. -/
def roots (s : State) : List Handle :=
  s.stack.items ++ s.frames.flatMap fun frame => frame.bindings.map Prod.snd

end State

/-! ## Actions -/

abbrev Action := EStateM Fault.Cause State

namespace Action

def push (h : Handle) : Action Unit :=
  modify fun s => { s with stack := s.stack.push h }

def pop (opcode : Opcode) : Action Handle := do
  let s ← get
  match s.stack.pop? with
  | none => throw (.underflow opcode 1 0)
  | some (h, stack) =>
    set { s with stack }
    return h

/-- Takes the top two values from the stack, and gives the lower one first. -/
def popPair (opcode : Opcode) : Action (Handle × Handle) := do
  let s ← get
  match s.stack.popPair? with
  | none => throw (.underflow opcode 2 s.stack.height)
  | some (top, below, stack) =>
    set { s with stack }
    return (below, top)

def check (f : Meter → Except LimitError Unit) : Action Unit := do
  match f (← get).meter with
  | .ok () => return ()
  | .error e => throw (.limit e)

/-- Counts an allocation that is about to be made. -/
def countAllocation : Action Unit := do
  let s ← get
  match s.meter.allocate with
  | .ok meter => set { s with meter }
  | .error e => throw (.limit e)

/-- Checks that the heap has a slot for another value. -/
def checkRoom : Action Unit := do
  let heap := (← get).heap
  if heap.isFull then
    throw (.limit (.allocation (Heap.capacity - 1) (heap.slots.size + 1)))

/-- Puts a value into the heap; the current frame owns it. -/
def allocate (value : Value) : Action Handle := do
  countAllocation
  checkRoom
  modifyGet fun s =>
    let (h, heap) := s.heap.allocate value
    (h, { s with heap, frame := { s.frame with owned := h :: s.frame.owned } })

/-- Puts an integer into the heap and on the stack. -/
def pushInt (value : Int) : Action Unit := do
  push (← allocate (.int value))

def valueOf (h : Handle) : Action Value := do
  match (← get).heap.get? h with
  | some value => return value
  | none => throw (.dangling h)

/-- The integer of a handle, for an operation with a given name. -/
def intOf (h : Handle) (operation : String) : Action Int := do
  match ← valueOf h with
  | .int value => return value
  | .array _ => throw (.notInteger operation)

/-- The elements of the array of a handle, for an operation with a given name. -/
def elementsOf (h : Handle) (operation : String) : Action (Array Handle) := do
  match ← valueOf h with
  | .array elements => return elements
  | .int _ => throw (.notArray operation)

def lookup (name : String) : Action Handle := do
  match (← get).frame.bindings.lookup name with
  | some h => return h
  | none => throw (.unboundName name)

def bind (name : String) (h : Handle) : Action Unit :=
  modify fun s => { s with frame := { s.frame with bindings := s.frame.bindings.bind name h } }

/-- Prints the value of a handle on a line of its own. -/
def print (h : Handle) : Action Unit := do
  let s ← get
  match s.heap.render h with
  | .ok text => set { s with output := s.output ++ text ++ "\n" }
  | .error h => throw (.dangling h)

end Action

end CMinusMinus
