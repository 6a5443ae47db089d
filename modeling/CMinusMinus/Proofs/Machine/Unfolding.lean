import CMinusMinus.Machine.Rendering
import Mathlib.Data.List.Nodup
import Mathlib.Data.List.Perm.Subperm
import Mathlib.Tactic.Common

/-!
# Printing and copying

Printing walks over open arrays and copying recurses into them, but both cut an array off where it is met
inside itself. What is printed is the text of the copy that is deep enough for every slot to be open.
-/

namespace CMinusMinus

/-- The texts of elements, the first of which has a position, with the commas before them. -/
def joinFrom (position : Nat) (texts : List String) : String :=
  if position = 0 then ", ".intercalate texts else String.join (texts.map (", " ++ ·))

theorem intercalate_cons (text : String) (texts : List String) :
    ", ".intercalate (text :: texts) = text ++ String.join (texts.map (", " ++ ·)) := by
  induction texts generalizing text with
  | nil => simp
  | cons next rest ih =>
    rw [String.intercalate_cons_cons, ih, List.map_cons, String.join_cons, String.append_assoc,
      String.append_assoc]

theorem joinFrom_cons (position : Nat) (text : String) (texts : List String) :
    joinFrom position (text :: texts) =
      (if position = 0 then text else ", " ++ text) ++ joinFrom (position + 1) texts := by
  unfold joinFrom
  split
  · simp [intercalate_cons]
  · simp

theorem texts_eq_map (objects : List Object) : Object.texts objects = objects.map Object.text := by
  induction objects with
  | nil => rfl
  | cons object rest ih => rw [Object.texts, ih, List.map_cons]

namespace Heap

/-- The slots of open arrays. -/
def openIndices (path : List OpenArray) : List Nat := path.map (·.index)

theorem length_le_of_nodup {path : List Nat} {n : Nat} (hn : path.Nodup) (hl : ∀ i ∈ path, i < n) :
    path.length ≤ n := by
  have hsub : path ⊆ List.range n := fun i hi => List.mem_range.2 (hl i hi)
  simpa using (List.subperm_of_subset hn hsub).length_le

theorem all_ne_iff {path : List OpenArray} {i : Nat} :
    path.all (·.index ≠ i) = true ↔ i ∉ openIndices path := by
  simp only [openIndices, List.all_eq_true, List.mem_map, not_exists, not_and]
  simp

theorem objectWithin_int {heap : Heap} {h : Handle} {value : Int} (depth : Nat) (path : List Nat)
    (hv : heap.get? h = some (.int value)) :
    heap.objectWithin depth path h = .ok (.int value) := by
  unfold objectWithin
  rw [hv]

theorem objectWithin_cycle {heap : Heap} {h : Handle} {elements : Array Handle} (depth : Nat)
    {path : List Nat} (hv : heap.get? h = some (.array elements)) (hp : h.index ∈ path) :
    heap.objectWithin (depth + 1) path h = .ok .cycle := by
  unfold objectWithin
  rw [hv]
  exact if_pos hp

theorem objectWithin_array {heap : Heap} {h : Handle} {elements : Array Handle} (depth : Nat)
    {path : List Nat} (hv : heap.get? h = some (.array elements)) (hp : h.index ∉ path) :
    heap.objectWithin (depth + 1) path h =
      .array <$> elements.toList.mapM (heap.objectWithin depth (h.index :: path)) := by
  rw [objectWithin, hv]
  exact if_neg hp

theorem ok_bind {ε α β : Type} (a : α) (f : α → Except ε β) : (Except.ok a >>= f) = f a := rfl

/-- Printing what is left of the innermost open array prints the copies of its elements. -/
def Prints (heap : Heap) (depth : Nat) (top : OpenArray) (below : List OpenArray) : Prop :=
  ∀ printed, heap.renderFrom printed (top :: below) =
    (top.elements.toList.drop top.position).mapM
      (heap.objectWithin depth (openIndices (top :: below))) >>= fun objects =>
    heap.renderFrom (printed ++ joinFrom top.position (objects.map Object.text) ++ " ]") below

section Prints

variable {heap : Heap} {top : OpenArray} {below : List OpenArray} {depth : Nat}

theorem prints_nil (hp : ¬ top.position < top.elements.size) : heap.Prints depth top below := by
  intro printed
  rw [renderFrom, dif_neg hp, List.drop_eq_nil_of_le (by simpa using hp)]
  simp [joinFrom]

/-- The copy of an element is printed before the elements behind it. -/
theorem Prints.cons (hp : top.position < top.elements.size)
    (h : heap.Prints depth { top with position := top.position + 1 } below) (printed : String) :
    (heap.objectWithin depth (openIndices (top :: below)) top.elements[top.position] >>= fun object =>
      heap.renderFrom ((if top.position = 0 then printed else printed ++ ", ") ++ object.text)
        ({ top with position := top.position + 1 } :: below)) =
    (top.elements.toList.drop top.position).mapM
      (heap.objectWithin depth (openIndices (top :: below))) >>= fun objects =>
    heap.renderFrom (printed ++ joinFrom top.position (objects.map Object.text) ++ " ]") below := by
  have hcomma : ∀ text, (if top.position = 0 then printed else printed ++ ", ") ++ text =
      printed ++ (if top.position = 0 then text else ", " ++ text) := by
    intro text
    split <;> simp [String.append_assoc]
  rw [List.drop_eq_getElem_cons (by simpa using hp), List.mapM_cons]
  simp only [Array.getElem_toList, bind_assoc, pure_bind, List.map_cons, joinFrom_cons]
  congr 1
  funext object
  rw [h, hcomma]
  simp only [String.append_assoc]
  rfl

/-- An array is printed as its copy. -/
theorem Prints.array {h : Handle} {elements : Array Handle}
    (hprints : heap.Prints depth ⟨h.index, elements, 0⟩ below)
    (hv : heap.get? h = some (.array elements)) (hi : h.index ∉ openIndices below) (printed : String) :
    heap.renderFrom (printed ++ "[ ") (⟨h.index, elements, 0⟩ :: below) =
      heap.objectWithin (depth + 1) (openIndices below) h >>= fun object =>
      heap.renderFrom (printed ++ object.text) below := by
  rw [hprints, objectWithin_array depth hv hi]
  show elements.toList.mapM (heap.objectWithin depth (h.index :: openIndices below)) >>= _ = _
  cases elements.toList.mapM (heap.objectWithin depth (h.index :: openIndices below)) with
  | error e => rfl
  | ok objects =>
    rw [ok_bind]
    show _ = heap.renderFrom (printed ++ (Object.array objects).text) below
    simp [Object.text, texts_eq_map, joinFrom, String.append_assoc]

end Prints

/-- With room for every slot to be open, what is printed is copied. -/
theorem prints_of_depth (heap : Heap) (top : OpenArray) (below : List OpenArray) (depth : Nat)
    (hn : (openIndices (top :: below)).Nodup)
    (hl : ∀ i ∈ openIndices (top :: below), i < heap.slots.size)
    (hd : heap.slots.size < depth + (below.length + 1)) : heap.Prints depth top below := by
  induction hm : heap.remaining (top :: below) using Nat.strongRecOn generalizing top below depth with
  | ind measure ih =>
    subst hm
    by_cases hp : top.position < top.elements.size
    · have hrest := ih _ (heap.remaining_next hp) { top with position := top.position + 1 } below depth
        hn hl hd rfl
      intro printed
      rw [← hrest.cons hp, renderFrom, dif_pos hp]
      generalize top.elements[top.position] = h
      generalize (if top.position = 0 then printed else printed ++ ", ") = text
      dsimp only
      split
      · rename_i he
        rw [objectWithin, he]
        rfl
      · rename_i value he
        rw [objectWithin_int _ _ he]
        rfl
      · rename_i elements he
        -- the open arrays lie in different slots, so the depth is not used up
        obtain ⟨depth, rfl⟩ : ∃ d, depth = d + 1 := by
          have := length_le_of_nodup hn hl
          simp only [openIndices, List.length_map, List.length_cons] at this
          exact ⟨depth - 1, by omega⟩
        split
        · rename_i ha
          have hi : h.index ∉ openIndices ({ top with position := top.position + 1 } :: below) :=
            all_ne_iff.1 ha
          refine Prints.array ?_ he hi _
          refine ih _ (heap.remaining_open hp he ha) ⟨h.index, elements, 0⟩
            ({ top with position := top.position + 1 } :: below) depth
            (List.nodup_cons.2 ⟨hi, hn⟩) ?_ (by simp only [List.length_cons]; omega) rfl
          intro i hm
          rcases List.mem_cons.1 hm with rfl | hm
          · exact index_lt_size he
          · exact hl i hm
        · rename_i ha
          rw [objectWithin_cycle _ he (by_contra fun hi => ha (all_ne_iff.2 hi))]
          rfl
    · exact prints_nil hp

/-- The value of a handle with all that it holds; only arrays inside themselves are cut off, since no
other ones lie deeper than there are slots. -/
def unfolding (heap : Heap) (h : Handle) : Except Handle Object :=
  heap.objectWithin (heap.slots.size + 1) [] h

/-- Printing gives the text of the unfolding. -/
theorem render_eq (heap : Heap) (h : Handle) : heap.render h = Object.text <$> heap.unfolding h := by
  unfold render unfolding
  split
  · rename_i hv
    rw [objectWithin, hv]
    rfl
  · rename_i value hv
    rw [objectWithin_int _ _ hv]
    rfl
  · rename_i elements hv
    have hprints := heap.prints_of_depth ⟨h.index, elements, 0⟩ [] heap.slots.size
      (by simp [openIndices]) (by simpa [openIndices] using index_lt_size hv) (by simp)
    refine (hprints.array hv (by simp [openIndices]) "").trans ?_
    show heap.objectWithin _ [] h >>= _ = _
    cases heap.objectWithin (heap.slots.size + 1) [] h with
    | error e => rfl
    | ok object =>
      rw [ok_bind, renderFrom]
      simp

/-! ## Depth -/

theorem mapM_congr {α β ε : Type} {f g : α → Except ε β} {xs : List α} (h : ∀ x ∈ xs, f x = g x) :
    xs.mapM f = xs.mapM g := by
  induction xs with
  | nil => rfl
  | cons x xs ih =>
    rw [List.mapM_cons, List.mapM_cons, h x (by simp), ih fun y hy => h y (by simp [hy])]

/-- Where the depth is large enough for every slot to be open, it does not matter. -/
theorem objectWithin_depth (heap : Heap) {path : List Nat} {depth depth' : Nat} (hn : path.Nodup)
    (hl : ∀ i ∈ path, i < heap.slots.size) (hd : heap.slots.size < depth + path.length)
    (hd' : heap.slots.size < depth' + path.length) (h : Handle) :
    heap.objectWithin depth path h = heap.objectWithin depth' path h := by
  induction depth generalizing depth' path h with
  | zero =>
    have := length_le_of_nodup hn hl
    omega
  | succ depth ih =>
    obtain ⟨depth', rfl⟩ : ∃ d, depth' = d + 1 := by
      have := length_le_of_nodup hn hl
      exact ⟨depth' - 1, by omega⟩
    cases hv : heap.get? h with
    | none => simp only [objectWithin, hv]
    | some value =>
      cases value with
      | int value => rw [objectWithin_int _ _ hv, objectWithin_int _ _ hv]
      | array elements =>
        by_cases hp : h.index ∈ path
        · rw [objectWithin_cycle _ hv hp, objectWithin_cycle _ hv hp]
        · rw [objectWithin_array _ hv hp, objectWithin_array _ hv hp]
          refine congrArg _ (mapM_congr fun element _ => ih (List.nodup_cons.2 ⟨hp, hn⟩) ?_ ?_ ?_ _)
          · intro i hm
            rcases List.mem_cons.1 hm with rfl | hm
            · exact index_lt_size hv
            · exact hl i hm
          · simp only [List.length_cons]
            omega
          · simp only [List.length_cons]
            omega

end Heap

end CMinusMinus
