import CMinusMinus.Graph.Search

/-!
# The heap

Values live in numbered slots. A handle names a slot and the generation of its content; freeing a slot
starts the next generation, so a handle that outlives its value resolves to nothing instead of to what
the slot holds next. Freed slots are used again, the last one freed first, before the heap grows.

A collection marks the slots that can be reached from the roots through the elements of arrays and
frees the other ones.

Memory is idealised: it does not run out before the numbers of slots do, and whether there is room for
an array is up to its length alone.
-/

namespace CMinusMinus

/-! ## Values -/

/-- Names a slot and the generation of its content. -/
structure Handle where
  index : Nat
  generation : Nat
deriving DecidableEq, Repr

/-- The slot and the generation, as errors show them. -/
def Handle.text (h : Handle) : String :=
  s!"#{h.index}v{h.generation}"

/-- A value in a slot. Integers never change; arrays share their elements with whoever else holds a
handle to them. -/
inductive Value where
  | int (value : Int)
  | array (elements : Array Handle)
deriving DecidableEq, Repr

def Value.kind : Value → String
  | int _ => "Int"
  | array _ => "Array"

def Value.children : Value → Array Handle
  | int _ => #[]
  | array elements => elements

/-- The value with one element replaced. -/
def Value.setElement (position : Nat) (element : Handle) : Value → Value
  | .int value => .int value
  | .array elements => .array (elements.setIfInBounds position element)

/-! ## Slots -/

/-- A place for a value; a slot without one is free. -/
structure Slot where
  generation : Nat
  value : Option Value
deriving DecidableEq, Repr

/-- How many generations of a slot there are; the first one follows the last. -/
def generationBound : Nat := 0x100000000

/-- The slot after its value is freed. -/
def Slot.release (slot : Slot) : Slot :=
  ⟨(slot.generation + 1) % generationBound, none⟩

/-- Slots and the numbers of those that are free, in the order in which they are used again. -/
structure Heap where
  slots : Array Slot
  free : List Nat
deriving DecidableEq

namespace Heap

def empty : Heap := ⟨#[], []⟩

/-- The number of slots that a heap cannot exceed: a slot has a number of 32 bits. -/
def capacity : Nat := 0x100000000

/-- The number of elements for which no machine has room: an address has 47 bits, an element takes
eight bytes. It stands for the answer of the system's allocator, which may refuse a shorter array too. -/
def arrayBound : Nat := 0x100000000000

/-- The value that a handle resolves to. -/
def get? (heap : Heap) (h : Handle) : Option Value :=
  if inside : h.index < heap.slots.size then
    let slot := heap.slots[h.index]
    if slot.generation = h.generation then slot.value else none
  else
    none

/-- Whether a handle resolves to a value. -/
def resolves (heap : Heap) (h : Handle) : Bool :=
  if inside : h.index < heap.slots.size then
    heap.slots[h.index].generation == h.generation && heap.slots[h.index].value.isSome
  else
    false

theorem isSome_get? (heap : Heap) (h : Handle) : (heap.get? h).isSome = heap.resolves h := by
  unfold get? resolves
  split
  · by_cases hg : heap.slots[h.index].generation = h.generation <;> simp [hg]
  · rfl

def valueAt? (heap : Heap) (index : Nat) : Option Value :=
  if inside : index < heap.slots.size then heap.slots[index].value else none

/-- Whether there is no slot for another value. -/
def isFull (heap : Heap) : Bool :=
  heap.free.isEmpty && heap.slots.size ≥ capacity

/-- Puts a value into the slot that was freed last, or else into a new one. -/
def allocate (heap : Heap) (value : Value) : Handle × Heap :=
  match heap.free with
  | index :: free =>
    let generation := (heap.slots[index]?.map Slot.generation).getD 0
    (⟨index, generation⟩, ⟨heap.slots.modify index ({ · with value := some value }), free⟩)
  | [] => (⟨heap.slots.size, 0⟩, ⟨heap.slots.push ⟨0, some value⟩, []⟩)

/-- Replaces an element of the array in a slot. -/
def setElement (heap : Heap) (array : Handle) (position : Nat) (element : Handle) : Heap :=
  { heap with slots := heap.slots.modify array.index fun slot =>
      { slot with value := slot.value.map (Value.setElement position element) } }

/-! ## Collection -/

/-- Puts the slot of a handle that resolves in front of slots, unless it stands there already. -/
def addResolved (heap : Heap) (h : Handle) (indices : List Nat) : List Nat :=
  match indices with
  | [] => if heap.resolves h then [h.index] else []
  | first :: _ =>
    if first = h.index then indices
    else if heap.resolves h then h.index :: indices
    else indices

/-- The slots of the handles that resolve; equal ones in a row are listed once. -/
def resolved (heap : Heap) (handles : Array Handle) : List Nat :=
  handles.foldr heap.addResolved []

/-- The slots that the value in a slot holds handles to. -/
def references (heap : Heap) (index : Nat) : List Nat :=
  if inside : index < heap.slots.size then
    match heap.slots[index].value with
    | some value => heap.resolved value.children
    | none => []
  else
    []

/-- Marks the slots that can be reached from roots. -/
def mark (heap : Heap) (roots : Array Handle) : Array Bool :=
  Graph.reach heap.references heap.slots.size (heap.resolved roots)

/-- Whether a slot has a mark. -/
def isMarked (marks : Array Bool) (index : Nat) : Bool :=
  marks.getD index false

/-- Whether a slot holds a value and has no mark. -/
def isGarbage (heap : Heap) (marks : Array Bool) (index : Nat) : Bool :=
  if inside : index < heap.slots.size then
    heap.slots[index].value.isSome && !isMarked marks index
  else
    false

/-- The slots with values that have no mark, in rising order. -/
def garbage (heap : Heap) (marks : Array Bool) : List Nat :=
  heap.slots.size.foldRev
    (fun index _ found => if heap.isGarbage marks index then index :: found else found) []

/-- Frees slots; the last one is used again first. -/
def release (heap : Heap) (indices : List Nat) : Heap where
  slots := indices.foldl (fun slots index => slots.modify index Slot.release) heap.slots
  free := indices.reverse ++ heap.free

/-! ## Statistics -/

def live (heap : Heap) : Nat :=
  heap.slots.size - heap.free.length

def values (heap : Heap) : List Value :=
  heap.slots.toList.filterMap Slot.value

/-- How many values there are of each kind that occurs, in the order of the kinds' names. -/
def kinds (heap : Heap) : List (String × Nat) :=
  let values := heap.values
  ["Array", "Int"].filterMap fun kind =>
    let count := values.countP (·.kind == kind)
    if count = 0 then none else some (kind, count)

end Heap

/-- What a heap holds at one time. -/
structure HeapStats where
  live : Nat
  free : Nat
  total : Nat
  kinds : List (String × Nat)
  /-- How many collections there were. -/
  collections : Nat
deriving DecidableEq, Repr

/-- The text of statistics: a summary, then a line for each kind of value. -/
def HeapStats.text (stats : HeapStats) : String :=
  stats.kinds.foldl (fun text kind => text ++ s!"\n  {kind.1}: {kind.2}")
    (s!"heap: {stats.live} live, {stats.free} free, {stats.total} slots, " ++
      s!"{stats.collections} collection(s)")

/-- What a heap holds after a number of collections. -/
def Heap.stats (heap : Heap) (collections : Nat) : HeapStats :=
  ⟨heap.values.length, heap.free.length, heap.slots.size, heap.kinds, collections⟩

end CMinusMinus
