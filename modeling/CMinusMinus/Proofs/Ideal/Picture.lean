import CMinusMinus.Proofs.Ideal.Machine
import CMinusMinus.Proofs.Machine.Resolution

/-!
# Pictures of states

A state of the machine has a picture without a heap: every array that is live has an address, and two of
them have different ones. Slots are used again and addresses are not, so the address of a slot changes
when an array is made in it; nothing else changes it, and a collection does not change the picture at
all.
-/

namespace CMinusMinus

/-! ## Handles -/

/-- What a handle stands for where the array in a slot has the address that `address` gives. -/
def Heap.datum (heap : Heap) (address : Nat → Nat) (h : Handle) : Datum :=
  match heap.get? h with
  | some (.int value) => .int value
  | _ => .array (address h.index)

theorem Heap.datum_int {heap : Heap} (address : Nat → Nat) {h : Handle} {value : Int}
    (hv : heap.get? h = some (.int value)) : heap.datum address h = .int value := by
  rw [datum, hv]

theorem Heap.datum_array {heap : Heap} (address : Nat → Nat) {h : Handle} {elements : Array Handle}
    (hv : heap.get? h = some (.array elements)) :
    heap.datum address h = .array (address h.index) := by
  rw [datum, hv]

theorem Heap.datum_congr {heap heap' : Heap} {address address' : Nat → Nat} {h : Handle}
    (hg : heap'.get? h = heap.get? h) (ha : address' h.index = address h.index) :
    heap'.datum address' h = heap.datum address h := by
  rw [datum, datum, hg, ha]

/-- A store changes the elements of an array and no datum. -/
theorem Heap.datum_setElement (heap : Heap) (address : Nat → Nat) (array : Handle) (position : Nat)
    (element h : Handle) :
    (heap.setElement array position element).datum address h = heap.datum address h := by
  simp only [datum, get?_setElement]
  by_cases hi : h.index = array.index
  · rw [if_pos hi]
    rcases heap.get? h with _ | _ | _ <;> rfl
  · rw [if_neg hi]

/-! ## States -/

def Frame.picture (heap : Heap) (address : Nat → Nat) (frame : Frame) : Ideal.Frame :=
  ⟨frame.bindings.map fun b => (b.1, heap.datum address b.2), frame.returnAddress⟩

/-- The meter as if nothing were ever collected: it has no interval, and nothing was freed. -/
def Meter.unfreed : Meter → Meter
  | plain => plain
  | counting limits allocated _ => counting { limits with interval := none } allocated 0

/-- The memory holds every live array of the heap at an address of its own. -/
structure Heap.Pictured (heap : Heap) (address : Nat → Nat) (memory : Memory) : Prop where
  arrays : ∀ i elements, heap.valueAt? i = some (.array elements) →
    memory[address i]? = some (elements.toList.map (heap.datum address))
  injective : ∀ i j elements elements', heap.valueAt? i = some (.array elements) →
    heap.valueAt? j = some (.array elements') → address i = address j → i = j

/-- No handle of a state dangles, and `t` is its picture; the picture has the meter if it is `limited`. -/
structure Picture (limited : Bool) (address : Nat → Nat) (s : State) (t : Ideal.State) : Prop where
  intact : s.Intact
  heap : s.heap.Pictured address t.memory
  meter : t.meter = if limited then some s.meter.unfreed else none
  stack : t.stack = s.stack.items.map (s.heap.datum address)
  frame : t.frame = s.frame.picture s.heap address
  callers : t.callers = s.callers.items.map (Frame.picture s.heap address)
  position : t.position = s.position
  output : t.output = s.output

/-- Handles that resolve stand for the same in both heaps. -/
def Keeps (heap heap' : Heap) (address address' : Nat → Nat) : Prop :=
  ∀ h, heap.resolves h = true → heap'.datum address' h = heap.datum address h

section Keeps

variable {heap heap' : Heap} {address address' : Nat → Nat} (hk : Keeps heap heap' address address')
include hk

theorem Keeps.map_eq {hs : List Handle} (hr : ∀ h ∈ hs, heap.resolves h = true) :
    hs.map (heap'.datum address') = hs.map (heap.datum address) :=
  List.map_congr_left fun h hh => hk h (hr h hh)

theorem Keeps.frame_eq {frame : Frame} (hr : frame.Resolves heap) :
    frame.picture heap' address' = frame.picture heap address := by
  simp only [Frame.picture, Ideal.Frame.mk.injEq, and_true]
  exact List.map_congr_left fun b hb => congrArg _ (hk b.2 (hr.bindings b hb))

end Keeps

theorem Picture.initial (limited : Bool) (entry size : Nat) (meter : Meter) :
    Picture limited id (.initial entry size meter)
      (.initial entry size (if limited then some meter.unfreed else none)) := by
  have hv : ∀ i, (State.initial entry size meter).heap.valueAt? i = none := by
    intro i
    simp [State.initial, Heap.empty, Heap.valueAt?_eq]
  refine ⟨.initial entry size meter, ⟨fun i elements h => ?_, fun i j es es' h => ?_⟩, rfl, rfl, rfl,
    rfl, rfl, rfl⟩
  · rw [hv] at h
    cases h
  · rw [hv] at h
    cases h

/-- The datum of a live array has its elements in memory. -/
theorem Picture.elements_eq {limited : Bool} {address : Nat → Nat} {s : State} {t : Ideal.State}
    (hp : Picture limited address s t) {h : Handle} {elements : Array Handle}
    (hv : s.heap.get? h = some (.array elements)) :
    t.memory.elements (address h.index) = elements.toList.map (s.heap.datum address) := by
  have hm := hp.heap.arrays h.index elements (Heap.valueAt?_of_get? hv)
  rw [Memory.elements, List.getD_eq_getElem?_getD, hm]
  rfl

/-! ## Copies and printed text -/

theorem mapM_eq_ok {α β ε : Type} {f : α → Except ε β} {g : α → β} {xs : List α}
    (h : ∀ x ∈ xs, f x = .ok (g x)) : xs.mapM f = .ok (xs.map g) := by
  induction xs with
  | nil => rfl
  | cons x xs ih =>
    rw [List.mapM_cons, h x (by simp), ih fun y hy => h y (by simp [hy])]
    rfl

theorem Memory.objectWithin_cycle (memory : Memory) (depth : Nat) {path : List Nat} {address : Nat}
    (hp : address ∈ path) : memory.objectWithin (depth + 1) path (.array address) = .cycle := by
  simp only [objectWithin, if_pos hp]

theorem Memory.objectWithin_array (memory : Memory) (depth : Nat) {path : List Nat} {address : Nat}
    (hp : address ∉ path) : memory.objectWithin (depth + 1) path (.array address) =
      .array ((memory.elements address).map (memory.objectWithin depth (address :: path))) := by
  simp only [objectWithin, if_neg hp]

/-- Where the depth is large enough for every array to be open, it does not matter. -/
theorem Memory.objectWithin_depth (memory : Memory) {path : List Nat} {depth depth' : Nat}
    (hn : path.Nodup) (hl : ∀ i ∈ path, i < memory.length) (hd : memory.length < depth + path.length)
    (hd' : memory.length < depth' + path.length) (datum : Datum) :
    memory.objectWithin depth path datum = memory.objectWithin depth' path datum := by
  induction depth generalizing depth' path datum with
  | zero =>
    have := Heap.length_le_of_nodup hn hl
    omega
  | succ depth ih =>
    obtain ⟨depth', rfl⟩ : ∃ d, depth' = d + 1 := by
      have := Heap.length_le_of_nodup hn hl
      exact ⟨depth' - 1, by omega⟩
    cases datum with
    | int value => simp only [objectWithin]
    | array address =>
      by_cases hp : address ∈ path
      · rw [objectWithin_cycle _ _ hp, objectWithin_cycle _ _ hp]
      · rw [objectWithin_array _ _ hp, objectWithin_array _ _ hp]
        by_cases ha : address < memory.length
        · refine congrArg _ (List.map_congr_left fun element _ =>
            ih (List.nodup_cons.2 ⟨hp, hn⟩) ?_ ?_ ?_ _)
          · intro i hm
            rcases List.mem_cons.1 hm with rfl | hm
            · exact ha
            · exact hl i hm
          · simp only [List.length_cons]
            omega
          · simp only [List.length_cons]
            omega
        · have hnil : memory.elements address = [] := by
            rw [elements, List.getD_eq_getElem?_getD, List.getElem?_eq_none (Nat.le_of_not_lt ha)]
            rfl
          rw [hnil]
          rfl

section Copies

variable {limited : Bool} {address : Nat → Nat} {s : State} {t : Ideal.State}
  (hp : Picture limited address s t)
include hp

/-- A copy out of the heap is the copy of the picture. -/
theorem Picture.objectWithin_eq (depth : Nat) (path : List Nat)
    (hpath : ∀ i ∈ path, ∃ elements, s.heap.valueAt? i = some (.array elements)) {h : Handle}
    (hr : s.heap.resolves h = true) :
    s.heap.objectWithin depth path h =
      .ok (t.memory.objectWithin depth (path.map address) (s.heap.datum address h)) := by
  induction depth generalizing path h with
  | zero =>
    obtain ⟨value, hv⟩ := Heap.resolves_iff.1 hr
    cases value with
    | int value =>
      rw [Heap.objectWithin_int _ _ hv, Heap.datum_int _ hv]
      rfl
    | array elements =>
      rw [Heap.objectWithin, hv, Heap.datum_array _ hv]
      rfl
  | succ depth ih =>
    obtain ⟨value, hv⟩ := Heap.resolves_iff.1 hr
    cases value with
    | int value =>
      rw [Heap.objectWithin_int _ _ hv, Heap.datum_int _ hv]
      rfl
    | array elements =>
      have ha := Heap.valueAt?_of_get? hv
      rw [Heap.datum_array _ hv]
      by_cases hi : h.index ∈ path
      · rw [Heap.objectWithin_cycle _ hv hi,
          Memory.objectWithin_cycle _ _ (List.mem_map_of_mem hi)]
      · have hm : address h.index ∉ path.map address := by
          -- no two arrays have one address
          intro hm
          obtain ⟨i, hmem, he⟩ := List.mem_map.1 hm
          obtain ⟨es, hes⟩ := hpath i hmem
          rw [hp.heap.injective i h.index es elements hes ha he] at hmem
          exact hi hmem
        have hall : ∀ x ∈ elements.toList, s.heap.objectWithin depth (h.index :: path) x =
            .ok (t.memory.objectWithin depth (address h.index :: path.map address)
              (s.heap.datum address x)) := by
          intro x hx
          refine ih (h.index :: path) ?_
            (hp.intact.elements _ elements ha x (by simpa using hx))
          intro i hmem
          rcases List.mem_cons.1 hmem with rfl | hmem
          · exact ⟨elements, ha⟩
          · exact hpath i hmem
        rw [Heap.objectWithin_array _ hv hi, Memory.objectWithin_array _ _ hm, hp.elements_eq hv,
          mapM_eq_ok hall, List.map_map]
        rfl

theorem Picture.object_eq {h : Handle} (hr : s.heap.resolves h = true) :
    s.heap.object h = .ok (t.memory.object (s.heap.datum address h)) :=
  hp.objectWithin_eq Heap.objectDepth [] (by simp) hr

theorem Picture.render_eq {h : Handle} (hr : s.heap.resolves h = true) :
    s.heap.render h = .ok (t.memory.text (s.heap.datum address h)) := by
  obtain ⟨depth, hd, hd'⟩ : ∃ depth, s.heap.slots.size < depth ∧ t.memory.length < depth :=
    ⟨s.heap.slots.size + t.memory.length + 1, by omega, by omega⟩
  have hheap : s.heap.unfolding h = s.heap.objectWithin depth [] h :=
    s.heap.objectWithin_depth List.nodup_nil (by simp) (by simp) hd h
  have hmemory : t.memory.objectWithin depth [] (s.heap.datum address h) =
      t.memory.objectWithin (t.memory.length + 1) [] (s.heap.datum address h) :=
    t.memory.objectWithin_depth List.nodup_nil (by simp) hd' (by simp) _
  have hcopy := hp.objectWithin_eq depth [] (by simp) hr
  rw [List.map_nil] at hcopy
  rw [Heap.render_eq, hheap, hcopy, hmemory]
  rfl

end Copies

end CMinusMinus
