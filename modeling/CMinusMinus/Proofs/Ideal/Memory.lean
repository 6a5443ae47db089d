import CMinusMinus.Machine.Object

/-!
# Memory that is never freed

A picture of the heap without slots, handles and collections. Integers are values of their own, and an
array has an address that no other array ever has. What a program prints and leaves behind depends on
this picture only.
-/

namespace CMinusMinus

/-- An integer, or the address of an array. -/
inductive Datum where
  | int (value : Int)
  | array (address : Nat)
deriving DecidableEq, Repr

/-- The elements of all arrays, in the order in which the arrays were made. -/
abbrev Memory := List (List Datum)

namespace Memory

/-- The elements of the array at an address; there are none where there is no array. -/
def elements (memory : Memory) (address : Nat) : List Datum :=
  memory.getD address []

/-- The memory with an element of an array replaced. -/
def store (memory : Memory) (address position : Nat) (value : Datum) : Memory :=
  memory.modify address (·.set position value)

/-- The value of a datum with at most `depth` arrays inside each other, inside the arrays at the
addresses in `path`. -/
def objectWithin (memory : Memory) (depth : Nat) (path : List Nat) : Datum → Object
  | .int value => .int value
  | .array address =>
    match depth with
    | 0 => .truncated
    | depth + 1 =>
      if address ∈ path then .cycle
      else .array ((memory.elements address).map (memory.objectWithin depth (address :: path)))

/-- The value of a datum, copied as deep as final values are. -/
def object (memory : Memory) (datum : Datum) : Object :=
  memory.objectWithin Heap.objectDepth [] datum

/-- The printed text of a datum; only arrays inside themselves are cut off. -/
def text (memory : Memory) (datum : Datum) : String :=
  (memory.objectWithin (memory.length + 1) [] datum).text

end Memory

end CMinusMinus
