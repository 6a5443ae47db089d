import CMinusMinus.Machine.Run
import CMinusMinus.Proofs.Ideal.Memory

/-!
# The machine without a heap

The stack machine on memory that is never freed. It runs every program that the machine with the heap
runs, and it needs no handles, owners and collections to do so. Its meter may be missing; then nothing is
limited.
-/

namespace CMinusMinus.Ideal

/-! ## States -/

/-- A function that was entered and not left. -/
structure Frame where
  bindings : List (String × Datum)
  returnAddress : Nat
deriving DecidableEq

/-- The frame with a variable bound, in the place of its earlier binding. -/
def Frame.bind (frame : Frame) (name : String) (datum : Datum) : Frame :=
  { frame with bindings := (name, datum) :: frame.bindings.filter (·.1 ≠ name) }

/-- The state of a run between two instructions. -/
structure State where
  meter : Option Meter
  memory : Memory
  stack : List Datum
  frame : Frame
  callers : List Frame
  position : Nat
  output : String
deriving DecidableEq

def State.outermost (t : State) : Frame :=
  t.callers.getLastD t.frame

def State.initial (entry size : Nat) (meter : Option Meter) : State :=
  ⟨meter, [], [], ⟨[], size⟩, [], entry, ""⟩

/-! ## Actions -/

abbrev Action := EStateM Fault.Cause State

def push (datum : Datum) : Action Unit :=
  modify fun t => { t with stack := datum :: t.stack }

def pop (opcode : Opcode) : Action Datum := do
  let t ← get
  match t.stack with
  | [] => throw (.underflow opcode 1 0)
  | datum :: stack =>
    set { t with stack }
    return datum

/-- Takes the top two data from the stack, and gives the lower one first. -/
def popPair (opcode : Opcode) : Action (Datum × Datum) := do
  let t ← get
  match t.stack with
  | top :: below :: stack =>
    set { t with stack }
    return (below, top)
  | stack => throw (.underflow opcode 2 stack.length)

def check (f : Meter → Except LimitError Unit) : Action Unit := do
  match (← get).meter.map f with
  | some (.error e) => throw (.limit e)
  | _ => return ()

/-- Counts an allocation that is about to be made. -/
def count : Action Unit := do
  let t ← get
  match t.meter.map Meter.allocate with
  | some (.ok meter) => set { t with meter := some meter }
  | some (.error e) => throw (.limit e)
  | none => return ()

def pushInt (value : Int) : Action Unit := do
  count
  push (.int value)

/-- The integer of a datum, for an operation with a given name. -/
def intOf (datum : Datum) (operation : String) : Action Int :=
  match datum with
  | .int value => return value
  | .array _ => throw (.notInteger operation)

/-- The address of an array, for an operation with a given name. -/
def addressOf (datum : Datum) (operation : String) : Action Nat :=
  match datum with
  | .array address => return address
  | .int _ => throw (.notArray operation)

/-- The elements of the array at an address. -/
def elementsAt (address : Nat) : Action (List Datum) := do
  return (← get).memory.elements address

def lookup (name : String) : Action Datum := do
  match (← get).frame.bindings.lookup name with
  | some datum => return datum
  | none => throw (.unboundName name)

def bind (name : String) (datum : Datum) : Action Unit :=
  modify fun t => { t with frame := t.frame.bind name datum }

def print (datum : Datum) : Action Unit :=
  modify fun t => { t with output := t.output ++ t.memory.text datum ++ "\n" }

/-! ## Instructions -/

def pushArgument (arg : String) : Action Unit :=
  match Text.readInt? arg with
  | some value => pushInt value
  | none => do push (← lookup arg)

def applyOperator (opcode : Opcode) (op : BinaryOp) : Action Unit := do
  let (lhs, rhs) ← popPair opcode
  let a ← intOf lhs opcode.name
  let b ← intOf rhs opcode.name
  match op.apply a b with
  | .ok value => pushInt value
  | .error e => throw (.arithmetic e)

def negate : Action Unit := do
  let datum ← pop .neg
  pushInt (-(← intOf datum Opcode.neg.name))

/-- The position in an array of `length` elements that a datum names. -/
def elementIndex (datum : Datum) (name : String) (length : Nat) : Action Nat := do
  let index ← intOf datum "index"
  if 0 ≤ index ∧ index < length then
    return index.toNat
  else
    throw (.badIndex index name length)

/-- Checks that there is room for the elements of an array. -/
def checkRoom (length : Nat) (name : String) : Action Unit := do
  if (← get).meter.isSome ∧ length ≥ Heap.arrayBound then
    throw (.noRoom length name)

def allocateArray (elements : List Datum) : Action Datum := do
  count
  modifyGet fun t => (.array t.memory.length, { t with memory := t.memory ++ [elements] })

/-- Binds a variable to a new array of zeros; the zero is counted as well. -/
def newArray (name : String) (length : Nat) : Action Unit := do
  count
  let array ← allocateArray (List.replicate length (.int 0))
  bind name array

def makeArray (name : String) : Action Unit := do
  let datum ← pop .array
  let size ← intOf datum Opcode.array.name
  if size < 0 ∨ size ≥ Text.countBound then
    throw (.badSize size name)
  let length := size.toNat
  check (Meter.checkArrayLength length)
  checkRoom length name
  newArray name length

def readElement (name : String) : Action Unit := do
  let datum ← pop .access
  let address ← addressOf (← lookup name) Opcode.access.name
  let elements ← elementsAt address
  let index ← elementIndex datum name elements.length
  if inside : index < elements.length then
    push elements[index]

def writeElement (name : String) : Action Unit := do
  let (value, datum) ← popPair .pop
  let array ← lookup name
  let address ← addressOf array Opcode.pop.name
  let elements ← elementsAt address
  let index ← elementIndex datum name elements.length
  modify fun t => { t with memory := t.memory.store address index value }

def pushLength (name : String) : Action Unit := do
  let address ← addressOf (← lookup name) Opcode.length.name
  let elements ← elementsAt address
  pushInt elements.length

def resolve (p : Program) (label : String) : Action Nat :=
  match p.labels.get? label with
  | some position => return position
  | none => throw (.unresolvedLabel label)

def jumpIfZero (p : Program) (label : String) : Action Control := do
  let target ← resolve p label
  let value ← intOf (← pop .jz) Opcode.jz.name
  return if value = 0 then .jump target else .next

def enter (p : Program) (label : String) : Action Control := do
  let target ← resolve p label
  let depth := (← get).callers.length + 1
  check (Meter.checkDepth depth)
  modify fun t => { t with frame := ⟨[], t.position + 1⟩, callers := t.frame :: t.callers }
  return .enter label target

def leave (count : String) : Action Control := do
  let t ← get
  match Text.readCount? count with
  | none => throw (.badCount count)
  | some count =>
    match t.callers with
    | [] => return .halt
    | caller :: callers =>
      let available := t.stack.length
      if available < count then
        throw (.underflow .ret count available)
      set { t with frame := caller, callers }
      return .leave t.frame.returnAddress

def execute (i : Instruction) (p : Program) : Action Control :=
  match i.opcode, i.args with
  | .push, [arg] => do pushArgument arg; return .next
  | .pop, [] => do discard (pop .pop); return .next
  | .pop, [name] => do bind name (← pop .pop); return .next
  | .pop, [_, name] => do writeElement name; return .next
  | .print, [] => do print (← pop .print); return .next
  | .neg, [] => do negate; return .next
  | .binary op, [] => do applyOperator (.binary op) op; return .next
  | .jz, [label] => jumpIfZero p label
  | .jmp, [label] => do return .jump (← resolve p label)
  | .call, [label] => enter p label
  | .ret, [count] => leave count
  | .array, [name] => do makeArray name; return .next
  | .access, [name] => do readElement name; return .next
  | .length, [name] => do pushLength name; return .next
  | opcode, args => throw (.arity opcode args.length)

/-! ## What the actions do -/

section Equations

variable (t : State)

theorem run_pop (opcode : Opcode) : (pop opcode).run t =
    match t.stack with
    | [] => .error (.underflow opcode 1 0) t
    | datum :: stack => .ok datum { t with stack } := by
  simp only [pop, EStateM.run_bind, EStateM.run_get]
  rcases t.stack with _ | ⟨datum, stack⟩ <;> rfl

theorem run_popPair (opcode : Opcode) : (popPair opcode).run t =
    match t.stack with
    | top :: below :: stack => .ok (below, top) { t with stack }
    | stack => .error (.underflow opcode 2 stack.length) t := by
  simp only [popPair, EStateM.run_bind, EStateM.run_get]
  rcases t.stack with _ | ⟨top, _ | ⟨below, stack⟩⟩ <;> rfl

theorem run_check (f : Meter → Except LimitError Unit) : (check f).run t =
    match t.meter.map f with
    | some (.error e) => .error (.limit e) t
    | _ => .ok () t := by
  simp only [check, EStateM.run_bind, EStateM.run_get]
  rcases t.meter.map f with _ | _ | _ <;> rfl

theorem run_count : count.run t =
    match t.meter.map Meter.allocate with
    | some (.ok meter) => .ok () { t with meter := some meter }
    | some (.error e) => .error (.limit e) t
    | none => .ok () t := by
  simp only [count, EStateM.run_bind, EStateM.run_get]
  rcases t.meter.map Meter.allocate with _ | _ | _ <;> rfl

theorem run_pushInt (value : Int) : (pushInt value).run t =
    match count.run t with
    | .ok _ t' => .ok () { t' with stack := .int value :: t'.stack }
    | .error e t' => .error e t' := by
  simp only [pushInt, EStateM.run_bind]
  cases count.run t <;> rfl

theorem run_intOf (datum : Datum) (operation : String) : (intOf datum operation).run t =
    match datum with
    | .int value => .ok value t
    | .array _ => .error (.notInteger operation) t := by
  cases datum <;> rfl

theorem run_addressOf (datum : Datum) (operation : String) : (addressOf datum operation).run t =
    match datum with
    | .array address => .ok address t
    | .int _ => .error (.notArray operation) t := by
  cases datum <;> rfl

theorem run_lookup (name : String) : (lookup name).run t =
    match t.frame.bindings.lookup name with
    | some datum => .ok datum t
    | none => .error (.unboundName name) t := by
  simp only [lookup, EStateM.run_bind, EStateM.run_get]
  cases t.frame.bindings.lookup name <;> rfl

theorem run_elementIndex (datum : Datum) (name : String) (length : Nat) :
    (elementIndex datum name length).run t =
    match datum with
    | .int index =>
      if 0 ≤ index ∧ index < length then .ok index.toNat t else .error (.badIndex index name length) t
    | .array _ => .error (.notInteger "index") t := by
  simp only [elementIndex, EStateM.run_bind, run_intOf]
  cases datum with
  | int index =>
    show EStateM.run (if _ then _ else _) t = if _ then _ else _
    split <;> rfl
  | array address => rfl

theorem run_checkRoom (length : Nat) (name : String) : (checkRoom length name).run t =
    if t.meter.isSome ∧ length ≥ Heap.arrayBound then .error (.noRoom length name) t
    else .ok () t := by
  simp only [checkRoom, EStateM.run_bind, EStateM.run_get]
  split <;> rfl

theorem run_resolve (p : Program) (label : String) : (resolve p label).run t =
    match p.labels.get? label with
    | some position => .ok position t
    | none => .error (.unresolvedLabel label) t := by
  rw [resolve]
  cases p.labels.get? label <;> rfl

theorem run_jumpIfZero (p : Program) (label : String) : (jumpIfZero p label).run t =
    match p.labels.get? label with
    | some target =>
      match t.stack with
      | .int value :: stack => .ok (if value = 0 then .jump target else .next) { t with stack }
      | .array _ :: stack => .error (.notInteger Opcode.jz.name) { t with stack }
      | [] => .error (.underflow .jz 1 0) t
    | none => .error (.unresolvedLabel label) t := by
  simp only [jumpIfZero, EStateM.run_bind, run_resolve]
  cases p.labels.get? label with
  | none => rfl
  | some target =>
    simp only [run_pop]
    rcases t.stack with _ | ⟨_ | _, stack⟩ <;> rfl

theorem run_enter (p : Program) (label : String) : (enter p label).run t =
    match p.labels.get? label with
    | some target =>
      match t.meter.map (Meter.checkDepth (t.callers.length + 1)) with
      | some (.error e) => .error (.limit e) t
      | _ => .ok (.enter label target)
        { t with frame := ⟨[], t.position + 1⟩, callers := t.frame :: t.callers }
    | none => .error (.unresolvedLabel label) t := by
  simp only [enter, EStateM.run_bind, run_resolve]
  cases p.labels.get? label with
  | none => rfl
  | some target =>
    simp only [EStateM.run_get, run_check]
    rcases t.meter.map (Meter.checkDepth (t.callers.length + 1)) with _ | _ | _ <;> rfl

theorem run_leave (count : String) : (leave count).run t =
    match Text.readCount? count with
    | none => .error (.badCount count) t
    | some count =>
      match t.callers with
      | [] => .ok .halt t
      | caller :: callers =>
        if t.stack.length < count then .error (.underflow .ret count t.stack.length) t
        else .ok (.leave t.frame.returnAddress) { t with frame := caller, callers } := by
  simp only [leave, EStateM.run_bind, EStateM.run_get]
  cases Text.readCount? count with
  | none => rfl
  | some count =>
    cases t.callers with
    | nil => rfl
    | cons caller callers =>
      dsimp only
      split <;> rfl

end Equations

/-! ## Runs -/

def advance (control : Control) (t : State) : State :=
  match control with
  | .next => { t with position := t.position + 1 }
  | .jump target | .enter _ target | .leave target => { t with position := target }
  | .halt => t

def turn (p : Program) (t : State) : State × Option Ending :=
  match p.instructions[t.position]? with
  | none => (t, some .completed)
  | some i =>
    match (execute i p).run t with
    | .error cause t' => (t', some (.failed ⟨cause, some t.position⟩))
    | .ok control t' => (advance control t', control.ending?)

def runFrom (p : Program) : Nat → State → State × Option Ending
  | 0, t => (t, none)
  | turns + 1, t =>
    match turn p t with
    | (t', none) => runFrom p turns t'
    | ended => ended

/-! ## What a run leaves -/

/-- The values on the stack, the lowest first. -/
def State.objects (t : State) : List Object :=
  t.stack.reverse.map t.memory.object

/-- The variables of the outermost frame with their values, in the order of their names. -/
def State.globals (t : State) : List (String × Object) :=
  (t.outermost.bindings.mergeSort fun a b => a.1 ≤ b.1).map fun b => (b.1, t.memory.object b.2)

end CMinusMinus.Ideal
