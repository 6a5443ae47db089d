import CMinusMinus.Machine.Heap
import CMinusMinus.Text.Numeral

/-!
# Values outside the heap

An object is a value copied out of the heap. An array that is met again inside itself is cut off as a
cycle, and arrays are cut off below a depth that does not depend on the program.
-/

namespace CMinusMinus

/-- A value that holds its elements. -/
inductive Object where
  | int (value : Int)
  | array (elements : List Object)
  /-- An array that is met again inside itself. -/
  | cycle
  /-- An array that lies too deep. -/
  | truncated
deriving Repr

/-- How an array that is cut off is written. -/
def elided : String := "[...]"

/-! ## Text -/

mutual

def Object.text : Object → String
  | .int value => Text.numeral value
  | .array elements => "[ " ++ ", ".intercalate (Object.texts elements) ++ " ]"
  | .cycle | .truncated => elided

/-- The texts of objects, one by one. -/
def Object.texts : List Object → List String
  | [] => []
  | object :: rest => object.text :: Object.texts rest

end

/-! ## Copies -/

namespace Heap

/-- How many arrays an object holds inside each other. -/
def objectDepth : Nat := 500

/-- Copies the value of a handle with at most `depth` arrays inside each other, inside the arrays of
the slots in `path`; a handle that does not resolve is the error. -/
def objectWithin (heap : Heap) (depth : Nat) (path : List Nat) (h : Handle) :
    Except Handle Object :=
  match heap.get? h with
  | none => .error h
  | some (.int value) => .ok (.int value)
  | some (.array elements) =>
    match depth with
    | 0 => .ok .truncated
    | depth + 1 =>
      if h.index ∈ path then
        .ok .cycle
      else do
        let objects ← elements.toList.mapM (heap.objectWithin depth (h.index :: path))
        return .array objects

/-- Copies the value of a handle. -/
def object (heap : Heap) (h : Handle) : Except Handle Object :=
  heap.objectWithin objectDepth [] h

end Heap

end CMinusMinus
