import CMinusMinus.Proofs.Machine.Immutability

/-!
# Where values are cut off

A value unfolds into an object: the elements of its arrays are unfolded in turn, inside one array more, and
an array is cut off exactly where it is met inside itself. Every value of a heap whose arrays hold only
handles that resolve unfolds, and into one object only. Printing gives the text of that object. Copying gives
the object cut off below a depth, so the two agree wherever the depth was not used up.
-/

namespace CMinusMinus

/-! ## Parts of objects -/

/-- An object is itself or a part of an element of another. -/
inductive Object.Contains : Object → Object → Prop where
  | self {object : Object} : Contains object object
  | element {elements : List Object} {object part : Object} (hm : object ∈ elements)
    (h : Contains object part) : Contains (.array elements) part

mutual

/-- The object with the arrays in it cut off that lie below a depth. -/
def Object.cut : Nat → Object → Object
  | _, .int value => .int value
  | _, .truncated => .truncated
  | 0, .cycle | 0, .array _ => .truncated
  | _ + 1, .cycle => .cycle
  | depth + 1, .array elements => .array (Object.cutAll depth elements)

def Object.cutAll : Nat → List Object → List Object
  | _, [] => []
  | depth, object :: rest => object.cut depth :: Object.cutAll depth rest

end

mutual

/-- An object is as it was unless something was cut off. -/
theorem Object.cut_eq_of_not_contains : ∀ (depth : Nat) (object : Object),
    ¬ (object.cut depth).Contains .truncated → object.cut depth = object
  | _, .int _, _ => by rw [Object.cut]
  | _, .truncated, _ => by rw [Object.cut]
  | 0, .cycle, h | 0, .array _, h => absurd (by rw [Object.cut]; exact .self) h
  | _ + 1, .cycle, _ => by rw [Object.cut]
  | depth + 1, .array elements, h => by
    rw [Object.cut] at h ⊢
    exact congrArg _ (Object.cutAll_eq_of_not_contains depth elements fun object hm hc => h (.element hm hc))

theorem Object.cutAll_eq_of_not_contains : ∀ (depth : Nat) (objects : List Object),
    (∀ object ∈ Object.cutAll depth objects, ¬ object.Contains .truncated) →
    Object.cutAll depth objects = objects
  | _, [], _ => by rw [Object.cutAll]
  | depth, object :: rest, h => by
    rw [Object.cutAll] at h ⊢
    obtain ⟨hobject, hrest⟩ := List.forall_mem_cons.1 h
    rw [object.cut_eq_of_not_contains depth hobject, Object.cutAll_eq_of_not_contains depth rest hrest]

end

mutual

/-- Cutting off makes no cycles. -/
theorem Object.contains_cycle_of_cut : ∀ (depth : Nat) (object : Object),
    (object.cut depth).Contains .cycle → object.Contains .cycle
  | _, .int _, h | _, .truncated, h => by rwa [Object.cut] at h
  | _, .cycle, _ => .self
  | 0, .array _, h => by
    rw [Object.cut] at h
    cases h
  | depth + 1, .array elements, h => by
    rw [Object.cut] at h
    obtain _ | ⟨hm, hpart⟩ := h
    obtain ⟨object, ho, hpart⟩ := Object.contains_cycle_of_cutAll depth elements _ hm hpart
    exact .element ho hpart

theorem Object.contains_cycle_of_cutAll : ∀ (depth : Nat) (objects : List Object),
    ∀ part ∈ Object.cutAll depth objects, part.Contains .cycle → ∃ object ∈ objects, object.Contains .cycle
  | _, [], _, hm, _ => by
    rw [Object.cutAll] at hm
    cases hm
  | depth, object :: rest, part, hm, h => by
    rw [Object.cutAll] at hm
    rcases List.mem_cons.1 hm with rfl | hm
    · exact ⟨object, List.mem_cons_self .., object.contains_cycle_of_cut depth h⟩
    · obtain ⟨other, ho, hother⟩ := Object.contains_cycle_of_cutAll depth rest part hm h
      exact ⟨other, List.mem_cons_of_mem _ ho, hother⟩

end

namespace Heap

variable {heap : Heap} {path : List Handle} {h : Handle} {object : Object}

/-! ## Unfolding -/

mutual

/-- What a value is from inside the arrays of `path`: an array that is one of them is cut off, and nothing
else is. -/
inductive Unfolds (heap : Heap) : List Handle → Handle → Object → Prop where
  | int {path : List Handle} {h : Handle} {value : Int} (hv : heap.get? h = some (.int value)) :
    Unfolds heap path h (.int value)
  | cycle {path : List Handle} {h : Handle} {elements : Array Handle}
    (hv : heap.get? h = some (.array elements)) (hp : h ∈ path) : Unfolds heap path h .cycle
  | array {path : List Handle} {h : Handle} {elements : Array Handle} {objects : List Object}
    (hv : heap.get? h = some (.array elements)) (hp : h ∉ path)
    (he : UnfoldsAll heap (h :: path) elements.toList objects) : Unfolds heap path h (.array objects)

/-- What values are, one by one. -/
inductive UnfoldsAll (heap : Heap) : List Handle → List Handle → List Object → Prop where
  | nil {path : List Handle} : UnfoldsAll heap path [] []
  | cons {path : List Handle} {h : Handle} {object : Object} {rest : List Handle} {objects : List Object}
    (ho : Unfolds heap path h object) (hr : UnfoldsAll heap path rest objects) :
    UnfoldsAll heap path (h :: rest) (object :: objects)

end

/-- Different arrays of a heap, each inside the next. -/
structure Path (heap : Heap) (path : List Handle) : Prop where
  nodup : (path.map Handle.index).Nodup
  arrays : ∀ h ∈ path, ∃ elements, heap.get? h = some (.array elements)

theorem path_nil (heap : Heap) : heap.Path [] :=
  ⟨List.nodup_nil, by simp⟩

theorem Path.index_mem_iff (hp : heap.Path path) {value : Value} (hv : heap.get? h = some value) :
    h.index ∈ path.map Handle.index ↔ h ∈ path := by
  refine ⟨fun hm => ?_, List.mem_map_of_mem⟩
  obtain ⟨k, hk, hi⟩ := List.mem_map.1 hm
  obtain ⟨elements, he⟩ := hp.arrays k hk
  rwa [← eq_of_index_eq he hv hi]

theorem Path.cons (hp : heap.Path path) {elements : Array Handle} (hv : heap.get? h = some (.array elements))
    (hm : h ∉ path) : heap.Path (h :: path) := by
  refine ⟨List.nodup_cons.2 ⟨mt (hp.index_mem_iff hv).1 hm, hp.nodup⟩, ?_⟩
  exact List.forall_mem_cons.2 ⟨⟨elements, hv⟩, hp.arrays⟩

theorem Path.length_le (hp : heap.Path path) : path.length ≤ heap.slots.size := by
  have hlength : path.length = (path.map Handle.index).length := List.length_map Handle.index |>.symm
  rw [hlength]
  refine length_le_of_nodup hp.nodup fun i hi => ?_
  obtain ⟨h, hm, rfl⟩ := List.mem_map.1 hi
  obtain ⟨elements, hv⟩ := hp.arrays h hm
  exact index_lt_size hv

/-! ## Every value unfolds -/

theorem exists_unfoldsAll {hs : List Handle} (h : ∀ x ∈ hs, ∃ object, heap.Unfolds path x object) :
    ∃ objects, heap.UnfoldsAll path hs objects := by
  induction hs with
  | nil => exact ⟨[], .nil⟩
  | cons x hs ih =>
    obtain ⟨⟨object, hx⟩, hs⟩ := List.forall_mem_cons.1 h
    obtain ⟨objects, hs⟩ := ih hs
    exact ⟨object :: objects, .cons hx hs⟩

/-- By induction on the number of slots that are not on the path. -/
theorem exists_unfolds (hc : heap.Complete) (hp : heap.Path path) (hr : heap.resolves h = true) :
    ∃ object, heap.Unfolds path h object := by
  induction hn : heap.slots.size - path.length using Nat.strongRecOn generalizing path h with
  | ind n ih =>
    obtain ⟨value, hv⟩ := resolves_iff.1 hr
    cases value with
    | int value => exact ⟨_, .int hv⟩
    | array elements =>
      by_cases hm : h ∈ path
      · exact ⟨_, .cycle hv hm⟩
      · have hcons := hp.cons hv hm
        have hlength := hcons.length_le
        rw [List.length_cons] at hlength
        have hall : ∀ x ∈ elements.toList, ∃ object, heap.Unfolds (h :: path) x object := fun x hx =>
          ih _ (by rw [List.length_cons]; omega) hcons
            (hc _ elements (valueAt?_of_get? hv) x (Array.mem_toList_iff.1 hx)) rfl
        obtain ⟨objects, ho⟩ := exists_unfoldsAll hall
        exact ⟨_, .array hv hm ho⟩

/-! ## Copies -/

theorem objectWithin_zero {elements : Array Handle} (path : List Nat)
    (hv : heap.get? h = some (.array elements)) : heap.objectWithin 0 path h = .ok .truncated := by
  rw [objectWithin, hv]

mutual

/-- A copy is what the value unfolds into, cut off below the depth. -/
theorem Unfolds.objectWithin : ∀ {path h object}, heap.Unfolds path h object → heap.Path path →
    ∀ depth, heap.objectWithin depth (path.map Handle.index) h = .ok (object.cut depth)
  | _, _, _, .int hv, _, depth => by rw [objectWithin_int _ _ hv, Object.cut]
  | _, _, _, .cycle hv _, _, 0 | _, _, _, .array hv _ _, _, 0 => by rw [objectWithin_zero _ hv, Object.cut]
  | _, _, _, .cycle hv hm, hp, depth + 1 => by
    rw [objectWithin_cycle depth hv ((hp.index_mem_iff hv).2 hm), Object.cut]
  | _, _, _, .array hv hm he, hp, depth + 1 => by
    rw [objectWithin_array depth hv (mt (hp.index_mem_iff hv).1 hm), ← List.map_cons,
      he.mapM (hp.cons hv hm) depth, Object.cut]
    rfl

theorem UnfoldsAll.mapM : ∀ {path hs objects}, heap.UnfoldsAll path hs objects → heap.Path path →
    ∀ depth, hs.mapM (heap.objectWithin depth (path.map Handle.index)) = .ok (Object.cutAll depth objects)
  | _, _, _, .nil, _, _ => by rw [Object.cutAll]; rfl
  | _, _, _, .cons ho hr, hp, depth => by
    rw [List.mapM_cons, ho.objectWithin hp depth, hr.mapM hp depth, Object.cutAll]
    rfl

end

mutual

/-- With room for every slot to be open nothing is cut off but for being inside itself. -/
theorem Unfolds.cut_eq : ∀ {path h object}, heap.Unfolds path h object → heap.Path path →
    ∀ depth, heap.slots.size < depth + path.length → object.cut depth = object
  | _, _, _, .int _, _, _, _ => by rw [Object.cut]
  | _, _, _, .cycle _ _, hp, 0, hd | _, _, _, .array _ _ _, hp, 0, hd => by
    have := hp.length_le
    omega
  | _, _, _, .cycle _ _, _, _ + 1, _ => by rw [Object.cut]
  | _, _, _, .array hv hm he, hp, depth + 1, hd => by
    rw [Object.cut, he.cutAll_eq (hp.cons hv hm) depth (by rw [List.length_cons]; omega)]

theorem UnfoldsAll.cutAll_eq : ∀ {path hs objects}, heap.UnfoldsAll path hs objects → heap.Path path →
    ∀ depth, heap.slots.size < depth + path.length → Object.cutAll depth objects = objects
  | _, _, _, .nil, _, _, _ => by rw [Object.cutAll]
  | _, _, _, .cons ho hr, hp, depth, hd => by
    rw [Object.cutAll, ho.cut_eq hp depth hd, hr.cutAll_eq hp depth hd]

end

theorem Unfolds.object_eq (ho : heap.Unfolds [] h object) :
    heap.object h = .ok (object.cut objectDepth) :=
  ho.objectWithin (path_nil heap) objectDepth

theorem Unfolds.unfolding_eq (ho : heap.Unfolds [] h object) : heap.unfolding h = .ok object := by
  have hcopy := ho.objectWithin (path_nil heap) (heap.slots.size + 1)
  rwa [ho.cut_eq (path_nil heap) _ (by simp)] at hcopy

theorem Unfolds.unique {other : Object} (ho : heap.Unfolds [] h object) (hother : heap.Unfolds [] h other) :
    other = object :=
  Except.ok.inj (hother.unfolding_eq.symm.trans ho.unfolding_eq)

theorem Unfolds.render_eq (ho : heap.Unfolds [] h object) : heap.render h = .ok object.text := by
  rw [Heap.render_eq, ho.unfolding_eq]
  rfl

/-- Where every array holds only handles that resolve, printing a value ends with the text of what the value
unfolds into, which is one object; and a copy of the value has the printed text if it was not cut off for its
depth. -/
theorem render_unfolds (hc : heap.Complete) (hr : heap.resolves h = true) :
    (∃ object, heap.Unfolds [] h object ∧ (∀ other, heap.Unfolds [] h other → other = object) ∧
      heap.render h = .ok object.text) ∧
    ∃ copy, heap.object h = .ok copy ∧ (¬ copy.Contains .truncated → heap.render h = .ok copy.text) := by
  obtain ⟨object, ho⟩ := exists_unfolds hc (path_nil heap) hr
  refine ⟨⟨object, ho, fun _ => ho.unique, ho.render_eq⟩, _, ho.object_eq, fun hwhole => ?_⟩
  rw [object.cut_eq_of_not_contains objectDepth hwhole, ho.render_eq]

/-- An array that holds itself, and an empty array twice. -/
def knot : Heap :=
  ⟨#[⟨0, some (.int 7)⟩, ⟨0, some (.array #[⟨0, 0⟩, ⟨1, 0⟩, ⟨2, 0⟩, ⟨2, 0⟩])⟩, ⟨0, some (.array #[])⟩], []⟩

theorem complete_knot : knot.Complete := by
  intro i elements hv h hh
  rcases i with _ | _ | _ | i <;> simp [knot, valueAt?_eq] at hv
  · subst hv
    have hall : ∀ k ∈ (#[⟨0, 0⟩, ⟨1, 0⟩, ⟨2, 0⟩, ⟨2, 0⟩] : Array Handle), knot.resolves k = true := by decide
    exact hall h hh
  · subst hv
    cases Array.not_mem_empty h hh

theorem render_unfolds_knot : knot.Complete ∧ knot.resolves ⟨1, 0⟩ = true ∧
    (∃ object, knot.Unfolds [] ⟨1, 0⟩ object ∧ knot.render ⟨1, 0⟩ = .ok object.text) ∧
    ∃ copy, knot.object ⟨1, 0⟩ = .ok copy ∧ ¬ copy.Contains .truncated ∧
      knot.render ⟨1, 0⟩ = .ok copy.text ∧ copy.text = "[ 7, [...], [  ], [  ] ]" := by
  have hr : knot.resolves ⟨1, 0⟩ = true := by decide
  obtain ⟨⟨object, ho, -, hrender⟩, copy, hcopy, hwhole⟩ := render_unfolds complete_knot hr
  have hknot : knot.object ⟨1, 0⟩ = .ok (.array [.int 7, .cycle, .array [], .array []]) := by cbv
  obtain rfl := Except.ok.inj (hcopy.symm.trans hknot)
  have huncut : ¬ (Object.array [.int 7, .cycle, .array [], .array []]).Contains .truncated := by
    rintro (_ | ⟨hm, hpart⟩)
    simp only [List.mem_cons, List.not_mem_nil, or_false] at hm
    rcases hm with rfl | rfl | rfl | rfl
    · cases hpart
    · cases hpart
    all_goals
      obtain _ | ⟨hm, -⟩ := hpart
      cases hm
  exact ⟨complete_knot, hr, ⟨object, ho, hrender⟩, _, hcopy, huncut, hwhole huncut, by cbv⟩

end Heap

end CMinusMinus
