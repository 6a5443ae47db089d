import CMinusMinus.Machine.Heap
import CMinusMinus.Proofs.Graph.Exploration
import Mathlib.Data.List.Nodup

/-!
# Laws of the heap

Values sit in slots, so a change of the heap is told slot by slot: an allocation fills a vacant slot, a
store changes the elements of one, and a collection empties those without a mark. Handles to any other
slot resolve as before.
-/

namespace CMinusMinus.Heap

/-! ## Look-up -/

theorem get?_eq (heap : Heap) (h : Handle) :
    heap.get? h = heap.slots[h.index]?.bind fun slot =>
      if slot.generation = h.generation then slot.value else none := by
  unfold get?
  split
  · rename_i hi
    rw [Array.getElem?_eq_getElem hi]
    rfl
  · rename_i hi
    rw [Array.getElem?_eq_none (Nat.le_of_not_lt hi)]
    rfl

theorem valueAt?_eq (heap : Heap) (index : Nat) :
    heap.valueAt? index = heap.slots[index]?.bind Slot.value := by
  unfold valueAt?
  split
  · rename_i hi
    rw [Array.getElem?_eq_getElem hi]
    rfl
  · rename_i hi
    rw [Array.getElem?_eq_none (Nat.le_of_not_lt hi)]
    rfl

theorem resolves_iff {heap : Heap} {h : Handle} :
    heap.resolves h = true ↔ ∃ value, heap.get? h = some value := by
  rw [← isSome_get?, Option.isSome_iff_exists]

/-- A handle that resolves names what its slot holds. -/
theorem valueAt?_of_get? {heap : Heap} {h : Handle} {value : Value} (hv : heap.get? h = some value) :
    heap.valueAt? h.index = some value := by
  rw [get?_eq] at hv
  rw [valueAt?_eq]
  obtain ⟨slot, hs, hv⟩ := Option.bind_eq_some_iff.1 hv
  split at hv
  · rw [hs]
    exact hv
  · cases hv

/-- The content of one slot decides what the handles to it resolve to. -/
theorem get?_congr {heap heap' : Heap} {h : Handle}
    (hs : heap'.slots[h.index]? = heap.slots[h.index]?) : heap'.get? h = heap.get? h := by
  rw [get?_eq, get?_eq, hs]

/-! ## Free slots -/

/-- The free list names slots without a value, each once. -/
structure FreeSound (heap : Heap) : Prop where
  vacant : ∀ i ∈ heap.free, ∃ generation, heap.slots[i]? = some ⟨generation, none⟩
  nodup : heap.free.Nodup

theorem freeSound_empty : empty.FreeSound :=
  ⟨by simp [empty], List.nodup_nil⟩

/-! ## Allocation -/

/-- What allocating a value does to a heap. -/
structure Allocated (heap : Heap) (value : Value) (h : Handle) (heap' : Heap) : Prop where
  vacant : heap.valueAt? h.index = none
  found : heap'.get? h = some value
  others : ∀ i, i ≠ h.index → heap'.slots[i]? = heap.slots[i]?
  free : heap'.FreeSound

theorem allocate_spec {heap : Heap} (hf : heap.FreeSound) (value : Value) :
    Allocated heap value (heap.allocate value).1 (heap.allocate value).2 := by
  obtain ⟨slots, free⟩ := heap
  cases free with
  | nil =>
    refine ⟨?_, ?_, ?_, ⟨?_, ?_⟩⟩
    · simp [allocate, valueAt?_eq]
    · simp [allocate, get?_eq]
    · intro i hi
      simp only [allocate] at hi ⊢
      rw [Array.getElem?_push, if_neg hi]
    · simp [allocate]
    · simp [allocate]
  | cons index free =>
    obtain ⟨generation, hs⟩ := hf.vacant index (by simp)
    have hs : slots[index]? = some ⟨generation, none⟩ := hs
    have hn := List.nodup_cons.1 hf.nodup
    refine ⟨?_, ?_, ?_, ⟨?_, hn.2⟩⟩
    · simp [allocate, valueAt?_eq, hs]
    · simp [allocate, get?_eq, hs, Array.getElem?_modify]
    · intro i hi
      simp only [allocate] at hi ⊢
      rw [Array.getElem?_modify, if_neg (Ne.symm hi)]
    · intro i hm
      have hm : i ∈ free := hm
      have hi : i ≠ index := fun he => hn.1 (he ▸ hm)
      obtain ⟨g, hg⟩ := hf.vacant i (List.mem_cons_of_mem _ hm)
      refine ⟨g, ?_⟩
      simp only [allocate]
      rw [Array.getElem?_modify, if_neg (Ne.symm hi)]
      exact hg

/-- Allocating keeps what the handles resolve to. -/
theorem Allocated.get?_eq {heap heap' : Heap} {value value' : Value} {h h' : Handle}
    (ha : Allocated heap value h heap') (hv : heap.get? h' = some value') :
    heap'.get? h' = some value' := by
  have hi : h'.index ≠ h.index := by
    intro he
    have := valueAt?_of_get? hv
    rw [he, ha.vacant] at this
    cases this
  rw [get?_congr (ha.others _ hi), hv]

theorem Allocated.valueAt?_eq {heap heap' : Heap} {value : Value} {h : Handle}
    (ha : Allocated heap value h heap') (i : Nat) :
    heap'.valueAt? i = if i = h.index then some value else heap.valueAt? i := by
  split
  · rename_i he
    rw [he]
    exact valueAt?_of_get? ha.found
  · rename_i he
    rw [Heap.valueAt?_eq, Heap.valueAt?_eq, ha.others i he]

/-! ## Elements -/

theorem get?_setElement (heap : Heap) (array : Handle) (position : Nat) (element h : Handle) :
    (heap.setElement array position element).get? h =
      if h.index = array.index then (heap.get? h).map (Value.setElement position element)
      else heap.get? h := by
  rw [get?_eq, get?_eq]
  simp only [setElement, Array.getElem?_modify, eq_comm (a := array.index)]
  split
  · cases heap.slots[h.index]? with
    | none => rfl
    | some slot =>
      simp only [Option.map_some, Option.bind_some]
      split <;> rfl
  · rfl

theorem valueAt?_setElement (heap : Heap) (array : Handle) (position : Nat) (element : Handle)
    (i : Nat) :
    (heap.setElement array position element).valueAt? i =
      if i = array.index then (heap.valueAt? i).map (Value.setElement position element)
      else heap.valueAt? i := by
  rw [valueAt?_eq, valueAt?_eq]
  simp only [setElement, Array.getElem?_modify, eq_comm (a := array.index)]
  split
  · cases heap.slots[i]? with
    | none => rfl
    | some slot => rfl
  · rfl

theorem freeSound_setElement {heap : Heap} (hf : heap.FreeSound) (array : Handle) (position : Nat)
    (element : Handle) : (heap.setElement array position element).FreeSound := by
  refine ⟨fun i hi => ?_, hf.nodup⟩
  obtain ⟨generation, hs⟩ := hf.vacant i hi
  refine ⟨generation, ?_⟩
  simp only [setElement, Array.getElem?_modify, hs]
  split <;> rfl

theorem resolves_setElement (heap : Heap) (array : Handle) (position : Nat) (element h : Handle) :
    (heap.setElement array position element).resolves h = heap.resolves h := by
  rw [← isSome_get?, ← isSome_get?, get?_setElement]
  split <;> simp

/-! ## Marks -/

theorem mem_addResolved {heap : Heap} {h : Handle} {indices : List Nat} {i : Nat} :
    i ∈ heap.addResolved h indices ↔ i ∈ indices ∨ heap.resolves h = true ∧ h.index = i := by
  unfold addResolved
  split
  · cases heap.resolves h <;> simp [eq_comm]
  · split
    · rename_i first rest he
      simp only [List.mem_cons, ← he]
      tauto
    · cases heap.resolves h <;> simp [or_comm, eq_comm]

theorem mem_resolved {heap : Heap} {handles : Array Handle} {i : Nat} :
    i ∈ heap.resolved handles ↔ ∃ h ∈ handles, heap.resolves h = true ∧ h.index = i := by
  obtain ⟨handles⟩ := handles
  simp only [resolved, List.foldr_toArray, List.mem_toArray]
  induction handles with
  | nil => simp
  | cons first rest ih => simp [mem_addResolved, ih, or_comm]

/-- Marks that a collection may free by: the roots have one, and the elements of an array with a mark
have one. -/
structure Closed (heap : Heap) (roots : List Handle) (marks : Array Bool) : Prop where
  roots : ∀ h ∈ roots, heap.resolves h = true → isMarked marks h.index = true
  elements : ∀ i elements, isMarked marks i = true → heap.valueAt? i = some (.array elements) →
    ∀ h ∈ elements, heap.resolves h = true → isMarked marks h.index = true

theorem isMarked_iff {marks : Array Bool} {i : Nat} :
    isMarked marks i = true ↔ marks[i]? = some true := by
  unfold isMarked
  rw [Array.getD_eq_getD_getElem?]
  cases marks[i]? with
  | none => simp
  | some b => simp

theorem index_lt_of_resolves {heap : Heap} {h : Handle} (hr : heap.resolves h = true) :
    h.index < heap.slots.size := by
  unfold resolves at hr
  split at hr
  · assumption
  · cases hr

theorem references_eq {heap : Heap} {i : Nat} {value : Value} (hv : heap.valueAt? i = some value) :
    heap.references i = heap.resolved value.children := by
  unfold valueAt? at hv
  split at hv
  · rename_i inside
    simp only [references, dif_pos inside, hv]
  · cases hv

/-- Marks are what the search from the roots finds. -/
theorem search_mark (heap : Heap) (roots : Array Handle) :
    Graph.search (ε := Empty) (fun v => .ok (heap.references v)) (Array.replicate heap.slots.size false)
      (heap.resolved roots) = .ok (heap.mark roots) := by
  unfold mark Graph.reach
  split
  assumption

/-- Marking reaches everything. -/
theorem closed_mark (heap : Heap) (roots : List Handle) :
    Closed heap roots (heap.mark roots.toArray) := by
  have hs := Graph.explored_of_search (heap.search_mark roots.toArray)
  refine ⟨fun h hh hr => ?_, fun i elements hi hv h hh hr => ?_⟩
  · rw [isMarked_iff]
    have hstart := mem_resolved.2 ⟨h, List.mem_toArray.2 hh, hr, rfl⟩
    exact hs.visits _ hstart (by simpa using index_lt_of_resolves hr)
  · rw [isMarked_iff] at hi ⊢
    obtain ⟨targets, ht, hall⟩ := hs.follows i hi (by simp [Array.getElem?_replicate])
    cases ht
    have hreferred : h.index ∈ heap.references i := by
      rw [references_eq hv]
      exact mem_resolved.2 ⟨h, hh, hr, rfl⟩
    exact hall _ hreferred (by simpa using index_lt_of_resolves hr)

/-! ## Freeing -/

theorem slots_release (heap : Heap) {indices : List Nat} (hn : indices.Nodup) (i : Nat) :
    (heap.release indices).slots[i]? =
      if i ∈ indices then (heap.slots[i]?).map Slot.release else heap.slots[i]? := by
  simp only [release]
  generalize heap.slots = slots
  induction indices generalizing slots with
  | nil => simp
  | cons index rest ih =>
    obtain ⟨hi, hn⟩ := List.nodup_cons.1 hn
    rw [List.foldl_cons, ih hn, Array.getElem?_modify]
    by_cases he : index = i
    · subst he
      simp [hi]
    · simp [he, Ne.symm he]

theorem foldRev_filter (p : Nat → Bool) (n : Nat) (init : List Nat) :
    n.foldRev (fun i _ found => if p i then i :: found else found) init =
      (List.range n).filter p ++ init := by
  induction n generalizing init with
  | zero => rfl
  | succ n ih =>
    rw [Nat.foldRev_succ, ih, List.range_succ, List.filter_append]
    by_cases hp : p n <;> simp [hp]

theorem garbage_eq (heap : Heap) (marks : Array Bool) :
    heap.garbage marks = (List.range heap.slots.size).filter (heap.isGarbage marks) := by
  rw [garbage, foldRev_filter, List.append_nil]

theorem nodup_garbage (heap : Heap) (marks : Array Bool) : (heap.garbage marks).Nodup := by
  rw [garbage_eq]
  exact List.nodup_range.filter _

theorem mem_garbage {heap : Heap} {marks : Array Bool} {i : Nat} :
    i ∈ heap.garbage marks ↔ (∃ value, heap.valueAt? i = some value) ∧ isMarked marks i = false := by
  rw [garbage_eq, List.mem_filter, List.mem_range]
  unfold isGarbage valueAt?
  constructor
  · rintro ⟨hi, hg⟩
    rw [dif_pos hi] at hg ⊢
    simpa [Option.isSome_iff_exists] using hg
  · rintro ⟨⟨value, hv⟩, hm⟩
    split at hv
    · rename_i hi
      refine ⟨hi, ?_⟩
      rw [dif_pos hi, hv, hm]
      rfl
    · cases hv

/-- A collection leaves what it marked as it is. -/
theorem get?_collected {heap : Heap} {marks : Array Bool} {h : Handle}
    (hm : isMarked marks h.index = true) :
    (heap.release (heap.garbage marks)).get? h = heap.get? h := by
  refine get?_congr ?_
  rw [slots_release _ (heap.nodup_garbage marks), if_neg]
  rw [mem_garbage]
  simp [hm]

/-- What a slot holds after a collection had a mark and was there before. -/
theorem valueAt?_collected {heap : Heap} {marks : Array Bool} {i : Nat} {value : Value}
    (hv : (heap.release (heap.garbage marks)).valueAt? i = some value) :
    isMarked marks i = true ∧ heap.valueAt? i = some value := by
  rw [valueAt?_eq, slots_release _ (heap.nodup_garbage marks)] at hv
  split at hv
  · cases hs : heap.slots[i]? with
    | none => simp [hs] at hv
    | some slot => simp [hs, Slot.release] at hv
  · rename_i hg
    rw [← valueAt?_eq] at hv
    refine ⟨?_, hv⟩
    by_contra hm
    exact hg (mem_garbage.2 ⟨⟨value, hv⟩, by simpa using hm⟩)

theorem freeSound_collected {heap : Heap} (hf : heap.FreeSound) (marks : Array Bool) :
    (heap.release (heap.garbage marks)).FreeSound := by
  constructor
  · intro i hi
    rw [slots_release _ (heap.nodup_garbage marks)]
    by_cases hg : i ∈ heap.garbage marks
    · rw [if_pos hg]
      obtain ⟨⟨value, hv⟩, -⟩ := mem_garbage.1 hg
      rw [valueAt?_eq] at hv
      obtain ⟨slot, hs, -⟩ := Option.bind_eq_some_iff.1 hv
      rw [hs]
      exact ⟨_, rfl⟩
    · rw [if_neg hg]
      have hi : i ∈ (heap.garbage marks).reverse ++ heap.free := hi
      rcases List.mem_append.1 hi with hi | hi
      · exact absurd (List.mem_reverse.1 hi) hg
      · exact hf.vacant i hi
  · show ((heap.garbage marks).reverse ++ heap.free).Nodup
    refine List.nodup_append.2 ⟨List.nodup_reverse.2 (heap.nodup_garbage marks), hf.nodup, ?_⟩
    rintro i hi _ hj rfl
    obtain ⟨⟨value, hv⟩, -⟩ := mem_garbage.1 (List.mem_reverse.1 hi)
    obtain ⟨generation, hs⟩ := hf.vacant i hj
    rw [valueAt?_eq, hs] at hv
    cases hv

end CMinusMinus.Heap
