import CMinusMinus.Proofs.Machine.Cycles

/-!
# How deep copies go

A copy of a value is the object that it unfolds into, with everything cut off that is an array below a depth,
also an array that is met inside itself there. So a copy never has more arrays inside each other than the
depth. Something of it is cut off for its depth exactly if as many different arrays lie inside each other, one
an element of the next, and the last of them holds an array, be it a new one or one of them.
-/

namespace CMinusMinus

/-! ## Nesting -/

mutual

/-- How many arrays an object has inside each other, itself included. -/
def Object.nesting : Object → Nat
  | .int _ | .cycle | .truncated => 0
  | .array elements => Object.nestingOf elements + 1

def Object.nestingOf : List Object → Nat
  | [] => 0
  | object :: rest => max object.nesting (Object.nestingOf rest)

end

mutual

theorem Object.nesting_cut_le : ∀ (depth : Nat) (object : Object), (object.cut depth).nesting ≤ depth
  | _, .int _ | _, .truncated | 0, .cycle | 0, .array _ | _ + 1, .cycle => by
    simp [Object.cut, Object.nesting]
  | depth + 1, .array elements => by
    rw [Object.cut, Object.nesting]
    exact Nat.succ_le_succ (Object.nestingOf_cutAll_le depth elements)

theorem Object.nestingOf_cutAll_le : ∀ (depth : Nat) (objects : List Object),
    Object.nestingOf (Object.cutAll depth objects) ≤ depth
  | depth, [] => by
    rw [Object.cutAll, Object.nestingOf]
    exact Nat.zero_le _
  | depth, object :: rest => by
    rw [Object.cutAll, Object.nestingOf]
    exact Nat.max_le.2 ⟨object.nesting_cut_le depth, Object.nestingOf_cutAll_le depth rest⟩

end

theorem Object.contains_truncated_array {elements : List Object} :
    (Object.array elements).Contains .truncated ↔ ∃ object ∈ elements, object.Contains .truncated := by
  constructor
  · rintro (_ | ⟨hm, h⟩)
    exact ⟨_, hm, h⟩
  · rintro ⟨object, hm, h⟩
    exact .element hm h

namespace Heap

variable {heap : Heap} {path chain : List Handle} {h k : Handle} {object : Object}

/-! ## Chains of arrays -/

/-- `chain` are different arrays, from that of `h` on, each an element of the one before it, and the array of
`k` is an element of the last one. Without any, `h` is `k`. -/
structure Descends (heap : Heap) (h : Handle) (chain : List Handle) (k : Handle) : Prop where
  head : (chain ++ [k]).head? = some h
  linked : (chain ++ [k]).IsChain heap.Refers
  nodup : chain.Nodup
  array : ∃ elements, heap.get? k = some (.array elements)

theorem descends_nil : heap.Descends h [] k ↔ k = h ∧ ∃ elements, heap.get? h = some (.array elements) := by
  constructor
  · rintro ⟨head, -, -, array⟩
    obtain rfl : k = h := Option.some.inj head
    exact ⟨rfl, array⟩
  · rintro ⟨rfl, array⟩
    exact ⟨rfl, .singleton _, List.nodup_nil, array⟩

/-- A chain goes on from an element of its first array, and does not come back to that array. -/
theorem descends_cons {first : Handle} : heap.Descends h (first :: chain) k ↔
    first = h ∧ h ∉ chain ∧ ∃ x, heap.Refers h x ∧ heap.Descends x chain k := by
  constructor
  · rintro ⟨head, linked, nodup, array⟩
    obtain rfl : first = h := Option.some.inj head
    rw [List.cons_append, List.isChain_cons] at linked
    obtain ⟨hnot, nodup⟩ := List.nodup_cons.1 nodup
    obtain ⟨x, hx⟩ : ∃ x, (chain ++ [k]).head? = some x := by cases chain <;> exact ⟨_, rfl⟩
    exact ⟨rfl, hnot, x, linked.1 x hx, hx, linked.2, nodup, array⟩
  · rintro ⟨rfl, hnot, x, hrefers, head, linked, nodup, array⟩
    refine ⟨rfl, ?_, List.nodup_cons.2 ⟨hnot, nodup⟩, array⟩
    rw [List.cons_append, List.isChain_cons]
    refine ⟨fun y hy => ?_, linked⟩
    obtain rfl := Option.some.inj (head.symm.trans hy)
    exact hrefers

theorem Descends.isArray (hd : heap.Descends h chain k) :
    ∃ elements, heap.get? h = some (.array elements) := by
  cases chain with
  | nil => exact (descends_nil.1 hd).2
  | cons first chain =>
    obtain ⟨-, -, x, ⟨elements, hv, -⟩, -⟩ := descends_cons.1 hd
    exact ⟨elements, hv⟩

/-! ## What is cut off for its depth -/

/-- From `h` down there are `depth` different arrays inside each other, none of which is in `path`, and an
array inside the last of them. -/
def Deep (heap : Heap) (depth : Nat) (path : List Handle) (h : Handle) : Prop :=
  ∃ chain k, heap.Descends h chain k ∧ chain.length = depth ∧ ∀ x ∈ chain, x ∉ path

theorem deep_zero : heap.Deep 0 path h ↔ ∃ elements, heap.get? h = some (.array elements) := by
  constructor
  · rintro ⟨chain, k, hd, -⟩
    exact hd.isArray
  · exact fun array => ⟨[], h, descends_nil.2 ⟨rfl, array⟩, rfl, by simp⟩

theorem deep_succ {depth : Nat} : heap.Deep (depth + 1) path h ↔
    h ∉ path ∧ ∃ x, heap.Refers h x ∧ heap.Deep depth (h :: path) x := by
  constructor
  · rintro ⟨_ | ⟨first, chain⟩, k, hd, hlength, hfresh⟩
    · cases hlength
    · obtain ⟨rfl, hnot, x, hrefers, hd⟩ := descends_cons.1 hd
      obtain ⟨hfirst, hfresh⟩ := List.forall_mem_cons.1 hfresh
      refine ⟨hfirst, x, hrefers, chain, k, hd, Nat.succ.inj hlength, fun y hy hm => ?_⟩
      rcases List.mem_cons.1 hm with rfl | hm
      · exact hnot hy
      · exact hfresh y hy hm
  · rintro ⟨hfirst, x, hrefers, chain, k, hd, hlength, hfresh⟩
    have hnot : h ∉ chain := fun hm => hfresh h hm (List.mem_cons_self ..)
    refine ⟨h :: chain, k, descends_cons.2 ⟨rfl, hnot, x, hrefers, hd⟩, congrArg (· + 1) hlength, ?_⟩
    exact List.forall_mem_cons.2 ⟨hfirst, fun y hy hm => hfresh y hy (List.mem_cons_of_mem _ hm)⟩

theorem not_deep_of_int {value : Int} (hv : heap.get? h = some (.int value)) (depth : Nat) :
    ¬ heap.Deep depth path h := by
  rintro ⟨chain, k, hd, -⟩
  obtain ⟨elements, ha⟩ := hd.isArray
  cases hv.symm.trans ha

mutual

theorem Unfolds.contains_truncated_iff : ∀ {path h object}, heap.Unfolds path h object →
    ∀ depth, (object.cut depth).Contains .truncated ↔ heap.Deep depth path h
  | _, _, _, .int hv, depth => by
    rw [Object.cut]
    exact iff_of_false nofun (not_deep_of_int hv depth)
  | _, _, _, .cycle hv _, 0 | _, _, _, .array hv _ _, 0 => by
    rw [Object.cut, deep_zero]
    exact iff_of_true .self ⟨_, hv⟩
  | _, _, _, .cycle _ hm, depth + 1 => by
    rw [Object.cut, deep_succ]
    exact iff_of_false nofun fun hd => hd.1 hm
  | _, _, _, @Unfolds.array _ path h elements _ hv hm he, depth + 1 => by
    have hrefers : ∀ x, heap.Refers h x ↔ x ∈ elements.toList := fun x => by
      rw [Refers, hv]
      simp
    rw [Object.cut, Object.contains_truncated_array, he.contains_truncated_iff depth, deep_succ,
      and_iff_right hm]
    simp only [hrefers]

theorem UnfoldsAll.contains_truncated_iff : ∀ {path hs objects}, heap.UnfoldsAll path hs objects →
    ∀ depth, (∃ object ∈ Object.cutAll depth objects, object.Contains .truncated) ↔
      ∃ x ∈ hs, heap.Deep depth path x
  | _, _, _, .nil, depth => by
    rw [Object.cutAll]
    simp
  | _, _, _, .cons ho hr, depth => by
    rw [Object.cutAll, List.exists_mem_cons_iff, List.exists_mem_cons_iff, ho.contains_truncated_iff depth,
      hr.contains_truncated_iff depth]

end

/-- Where every array holds only handles that resolve, the copy of a value that resolves is the one object
that the value unfolds into, cut off below 500 arrays. So it has no more arrays than that inside each other,
and something is cut off for its depth exactly if an array is inside the last one of 500 different arrays, each
inside the one before it. -/
theorem object_cut (hc : heap.Complete) (hr : heap.resolves h = true) :
    ∃ whole, heap.Unfolds [] h whole ∧ (∀ other, heap.Unfolds [] h other → other = whole) ∧
      heap.object h = .ok (whole.cut 500) ∧ (whole.cut 500).nesting ≤ 500 ∧
      ((whole.cut 500).Contains .truncated ↔ ∃ chain k, chain.length = 500 ∧ heap.Descends h chain k) := by
  obtain ⟨whole, hw⟩ := exists_unfolds hc (path_nil heap) hr
  refine ⟨whole, hw, fun _ => hw.unique, hw.object_eq, whole.nesting_cut_le 500, ?_⟩
  rw [hw.contains_truncated_iff 500]
  constructor
  · rintro ⟨chain, k, hd, hlength, -⟩
    exact ⟨chain, k, hlength, hd⟩
  · rintro ⟨chain, k, hlength, hd⟩
    exact ⟨chain, k, hd, hlength, by simp⟩

/-! ## Towers -/

/-- Arrays inside each other: the first slot holds the empty array, each other one an array of the one
before. -/
def tower (height : Nat) : Heap :=
  ⟨(Array.range height).map fun i => ⟨0, some (.array (if i = 0 then #[] else #[⟨i - 1, 0⟩]))⟩, []⟩

/-- The arrays of a tower from a floor down, without the lowest. -/
def floors : Nat → List Handle
  | 0 => []
  | i + 1 => ⟨i + 1, 0⟩ :: floors i

theorem length_floors : ∀ i, (floors i).length = i
  | 0 => rfl
  | i + 1 => congrArg (· + 1) (length_floors i)

theorem index_le_of_mem_floors {i : Nat} (hm : h ∈ floors i) : h.index ≤ i := by
  induction i with
  | zero => cases hm
  | succ i ih =>
    rcases List.mem_cons.1 hm with rfl | hm
    · exact le_rfl
    · exact (ih hm).trans (Nat.le_succ i)

variable {height i : Nat}

theorem valueAt?_tower (hi : i < height) :
    (tower height).valueAt? i = some (.array (if i = 0 then #[] else #[⟨i - 1, 0⟩])) := by
  simp [tower, valueAt?_eq, hi]

theorem get?_tower (hi : i < height) :
    (tower height).get? ⟨i, 0⟩ = some (.array (if i = 0 then #[] else #[⟨i - 1, 0⟩])) := by
  simp [tower, get?_eq, hi]

theorem complete_tower (height : Nat) : (tower height).Complete := by
  intro i elements hv h hh
  by_cases hi : i < height
  · rw [valueAt?_tower hi] at hv
    cases hv
    split at hh
    · cases Array.not_mem_empty h hh
    · obtain rfl : h = ⟨i - 1, 0⟩ := by simpa using hh
      exact resolves_iff.2 ⟨_, get?_tower (by omega)⟩
  · simp [tower, valueAt?_eq, hi] at hv

/-- From a floor all lower ones lie inside each other. -/
theorem descends_tower : ∀ {i}, i < height → (tower height).Descends ⟨i, 0⟩ (floors i) ⟨0, 0⟩
  | 0, hi => descends_nil.2 ⟨rfl, _, get?_tower hi⟩
  | i + 1, hi => by
    have hnew : ⟨i + 1, 0⟩ ∉ floors i := fun hm => Nat.not_succ_le_self i (index_le_of_mem_floors hm)
    have hrefers : (tower height).Refers ⟨i + 1, 0⟩ ⟨i, 0⟩ := ⟨_, get?_tower hi, by simp⟩
    exact descends_cons.2 ⟨rfl, hnew, _, hrefers, descends_tower (Nat.lt_of_succ_lt hi)⟩

/-- The lowest of 501 arrays inside each other is cut off. -/
theorem object_cut_tower : (tower 501).Complete ∧ (tower 501).resolves ⟨500, 0⟩ = true ∧
    ∃ copy, (tower 501).object ⟨500, 0⟩ = .ok copy ∧ copy.nesting ≤ 500 ∧ copy.Contains .truncated := by
  have hr : (tower 501).resolves ⟨500, 0⟩ = true := resolves_iff.2 ⟨_, get?_tower (by decide)⟩
  obtain ⟨whole, -, -, hcopy, hnesting, htruncated⟩ := object_cut (complete_tower 501) hr
  exact ⟨complete_tower 501, hr, _, hcopy, hnesting,
    htruncated.2 ⟨floors 500, _, length_floors 500, descends_tower (by decide)⟩⟩

end Heap

end CMinusMinus
