import CMinusMinus.Machine.Object

/-!
# Printed values

A value is printed from the heap without copying it. The arrays that are open, each with the element
to be printed next, are kept in a list, so arrays may lie inside each other to any depth. An array that
is met again while it is open is cut off; nothing else is.

Printing ends although arrays may hold each other. An open array counts for its remaining elements,
each weighed by a power of a base that is larger than any array, and the exponent is the number of
slots that could still be opened above it. Opening an array lowers the exponent and printing an
element lowers the factor, so the sum over the open arrays falls with every step.
-/

namespace CMinusMinus

/-- An open array: its slot, its elements and the position of the element to be printed next. -/
structure OpenArray where
  index : Nat
  elements : Array Handle
  position : Nat

namespace Heap

/-! ## A measure of what is left to print -/

/-- The number of elements of the value in a slot. -/
def width (slot : Slot) : Nat :=
  match slot.value with
  | some (.array elements) => elements.size
  | _ => 0

/-- A number above the lengths of all arrays. -/
def base (heap : Heap) : Nat :=
  (heap.slots.toList.map width).foldr max 0 + 2

/-- How many slots are not open. -/
def room (heap : Heap) (path : List OpenArray) : Nat :=
  (List.range heap.slots.size).countP fun index => path.all (·.index ≠ index)

/-- What one element of the innermost open array counts for. -/
def weight (heap : Heap) (path : List OpenArray) : Nat :=
  Nat.pow heap.base (heap.room path)

/-- What is left to print. -/
def remaining (heap : Heap) : List OpenArray → Nat
  | [] => 0
  | top :: below =>
    (top.elements.size - top.position + 1) * heap.weight (top :: below) + heap.remaining below

theorem le_foldr_max {n : Nat} {ns : List Nat} (h : n ∈ ns) : n ≤ ns.foldr max 0 := by
  induction ns with
  | nil => simp at h
  | cons m ms ih =>
    rcases List.mem_cons.1 h with rfl | h
    · exact Nat.le_max_left _ _
    · exact Nat.le_trans (ih h) (Nat.le_max_right _ _)

theorem index_lt_size {heap : Heap} {h : Handle} {value : Value} (hv : heap.get? h = some value) :
    h.index < heap.slots.size := by
  unfold get? at hv
  split at hv
  · assumption
  · cases hv

theorem size_lt_base {heap : Heap} {h : Handle} {elements : Array Handle}
    (he : heap.get? h = some (.array elements)) : elements.size + 1 < heap.base := by
  have hi := index_lt_size he
  simp only [get?, hi, ↓reduceDIte] at he
  split at he
  · have hw : width heap.slots[h.index] = elements.size := by simp [width, he]
    have hm : heap.slots[h.index] ∈ heap.slots.toList := Array.getElem_mem_toList hi
    have := le_foldr_max (List.mem_map.2 ⟨_, hm, rfl⟩ :
      width heap.slots[h.index] ∈ heap.slots.toList.map width)
    unfold base
    omega
  · cases he

theorem countP_lt_countP {p q : Nat → Bool} {ns : List Nat} (hle : ∀ n, p n = true → q n = true)
    {m : Nat} (hm : m ∈ ns) (hp : p m = false) (hq : q m = true) : ns.countP p < ns.countP q := by
  induction ns with
  | nil => simp at hm
  | cons n ns ih =>
    have hmono : ns.countP p ≤ ns.countP q := List.countP_mono_left fun n _ => hle n
    rcases List.mem_cons.1 hm with rfl | hm
    · simp only [List.countP_cons, hp, hq]
      simp
      omega
    · have := ih hm
      simp only [List.countP_cons]
      by_cases hpn : p n = true
      · rw [if_pos hpn, if_pos (hle n hpn)]
        omega
      · rw [if_neg hpn]
        split <;> omega

theorem room_lt_room {heap : Heap} {path : List OpenArray} {top : OpenArray}
    (hi : top.index < heap.slots.size) (hp : path.all (·.index ≠ top.index) = true) :
    heap.room (top :: path) < heap.room path := by
  unfold room
  refine countP_lt_countP (fun n hn => ?_) (List.mem_range.2 hi) (by simp) hp
  exact (Bool.and_eq_true_iff.1 hn).2

theorem weight_pos (heap : Heap) (path : List OpenArray) : 0 < heap.weight path :=
  Nat.pow_pos (by unfold base; omega)

/-- One element counts for more than all elements of an array that is opened above it. -/
theorem base_mul_weight_le {heap : Heap} {path path' : List OpenArray}
    (h : heap.room path < heap.room path') : heap.base * heap.weight path ≤ heap.weight path' :=
  calc heap.base * heap.weight path = Nat.pow heap.base (heap.room path + 1) := Nat.mul_comm _ _
    _ ≤ heap.weight path' := Nat.pow_le_pow_right (by unfold base; omega) h

/-- Printing an element lowers what its array counts for by the weight of an element. -/
theorem remaining_advance (heap : Heap) {top : OpenArray} (below : List OpenArray)
    (h : top.position < top.elements.size) :
    heap.remaining ({ top with position := top.position + 1 } :: below) + heap.weight (top :: below) =
      heap.remaining (top :: below) := by
  have hweight : heap.weight ({ top with position := top.position + 1 } :: below) =
      heap.weight (top :: below) := rfl
  have hcount : top.elements.size - top.position + 1 =
      top.elements.size - (top.position + 1) + 1 + 1 := by omega
  simp only [remaining, hweight, hcount, Nat.succ_mul]
  omega

/-- Printing an element without opening it leaves less to print. -/
theorem remaining_next (heap : Heap) {top : OpenArray} {below : List OpenArray}
    (h : top.position < top.elements.size) :
    heap.remaining ({ top with position := top.position + 1 } :: below) <
      heap.remaining (top :: below) := by
  have := heap.remaining_advance below h
  have := heap.weight_pos (top :: below)
  omega

/-- Opening the array that is to be printed next leaves less to print. -/
theorem remaining_open {heap : Heap} {top : OpenArray} {below : List OpenArray} {h : Handle}
    {elements : Array Handle} (hn : top.position < top.elements.size)
    (he : heap.get? h = some (.array elements))
    (hp : (top :: below).all (·.index ≠ h.index) = true) :
    heap.remaining (⟨h.index, elements, 0⟩ :: { top with position := top.position + 1 } :: below) <
      heap.remaining (top :: below) := by
  have hroom : heap.room (⟨h.index, elements, 0⟩ :: { top with position := top.position + 1 } :: below) <
      heap.room (top :: below) := room_lt_room (index_lt_size he) hp
  have hweight := base_mul_weight_le hroom
  have hless := Nat.mul_lt_mul_of_pos_right (size_lt_base he)
    (heap.weight_pos (⟨h.index, elements, 0⟩ :: { top with position := top.position + 1 } :: below))
  have := heap.remaining_advance below hn
  rw [remaining]
  simp only [Nat.sub_zero]
  omega

/-! ## Printing -/

/-- Prints what is left of the open arrays, the innermost first, after what is `printed` already; a
handle that does not resolve is the error. -/
def renderFrom (heap : Heap) (printed : String) (path : List OpenArray) : Except Handle String :=
  match path with
  | [] => .ok printed
  | top :: below =>
    if hn : top.position < top.elements.size then
      let h := top.elements[top.position]
      let printed := if top.position = 0 then printed else printed ++ ", "
      let rest := { top with position := top.position + 1 } :: below
      match he : heap.get? h with
      | none => .error h
      | some (.int value) => heap.renderFrom (printed ++ Text.numeral value) rest
      | some (.array elements) =>
        if hp : (top :: below).all (·.index ≠ h.index) = true then
          heap.renderFrom (printed ++ "[ ") (⟨h.index, elements, 0⟩ :: rest)
        else
          heap.renderFrom (printed ++ elided) rest
    else
      heap.renderFrom (printed ++ " ]") below
termination_by heap.remaining path
decreasing_by
  · exact remaining_next heap hn
  · exact remaining_open hn he hp
  · exact remaining_next heap hn
  · have : 0 < (top.elements.size - top.position + 1) * heap.weight (top :: below) :=
      Nat.mul_pos (Nat.succ_pos _) (heap.weight_pos _)
    simp only [remaining]
    omega

/-- The printed text of the value of a handle. -/
def render (heap : Heap) (h : Handle) : Except Handle String :=
  match heap.get? h with
  | none => .error h
  | some (.int value) => .ok (Text.numeral value)
  | some (.array elements) => heap.renderFrom "[ " [⟨h.index, elements, 0⟩]

end Heap

end CMinusMinus
