import CMinusMinus.Machine.Run
import CMinusMinus.Proofs.Machine.Action
import CMinusMinus.Proofs.Machine.Slots
import CMinusMinus.Proofs.Machine.Triple
import CMinusMinus.Proofs.Machine.Unfolding

/-!
# Handles that resolve

A handle that a running program can get hold of resolves. The invariant ranges over the stack, the
variables and owned values of every frame and the elements of live arrays at once: a store puts a handle
from the stack into an array, a return hands values to the caller, and the elements of a new array share
one zero. A collection frees nothing that the invariant speaks of, since its marks are closed.
-/

namespace CMinusMinus

/-! ## The invariant -/

/-- Every array holds only handles that resolve. -/
def Heap.Complete (heap : Heap) : Prop :=
  ∀ i elements, heap.valueAt? i = some (.array elements) → ∀ h ∈ elements, heap.resolves h = true

theorem Heap.exists_mapM_ok {α β ε : Type} (f : α → Except ε β) (xs : List α)
    (h : ∀ x ∈ xs, ∃ y, f x = .ok y) : ∃ ys, xs.mapM f = .ok ys := by
  induction xs with
  | nil => exact ⟨[], rfl⟩
  | cons x xs ih =>
    obtain ⟨y, hy⟩ := h x (by simp)
    obtain ⟨ys, hys⟩ := ih fun z hz => h z (by simp [hz])
    exact ⟨y :: ys, by rw [List.mapM_cons, hy, hys]; rfl⟩

/-- Copying never fails where every array holds only handles that resolve. -/
theorem Heap.exists_objectWithin {heap : Heap} (hc : heap.Complete) (depth : Nat) (path : List Nat)
    {h : Handle} (hr : heap.resolves h = true) :
    ∃ object, heap.objectWithin depth path h = .ok object := by
  induction depth generalizing path h with
  | zero =>
    obtain ⟨value, hv⟩ := resolves_iff.1 hr
    rw [objectWithin, hv]
    cases value <;> exact ⟨_, rfl⟩
  | succ depth ih =>
    obtain ⟨value, hv⟩ := resolves_iff.1 hr
    cases value with
    | int value => exact ⟨_, objectWithin_int _ _ hv⟩
    | array elements =>
      by_cases hp : h.index ∈ path
      · exact ⟨_, objectWithin_cycle _ hv hp⟩
      · obtain ⟨objects, ho⟩ := exists_mapM_ok (heap.objectWithin depth (h.index :: path))
          elements.toList fun x hx =>
            ih _ (hc _ elements (valueAt?_of_get? hv) x (by simpa using hx))
        exact ⟨.array objects, by rw [objectWithin_array _ hv hp, ho]; rfl⟩

/-- Every handle that a frame holds resolves. -/
structure Frame.Resolves (heap : Heap) (frame : Frame) : Prop where
  bindings : ∀ binding ∈ frame.bindings, heap.resolves binding.2 = true
  owned : ∀ h ∈ frame.owned, heap.resolves h = true

/-- No handle dangles: those on the stack, in the frames and in live arrays resolve, and the free list
names free slots. -/
structure State.Intact (s : State) : Prop where
  free : s.heap.FreeSound
  elements : s.heap.Complete
  stack : ∀ h ∈ s.stack.items, s.heap.resolves h = true
  frames : ∀ frame ∈ s.frames, frame.Resolves s.heap

theorem Frame.Resolves.mono {heap heap' : Heap} {frame : Frame} (hf : frame.Resolves heap)
    (h : ∀ x, heap.resolves x = true → heap'.resolves x = true) : frame.Resolves heap' :=
  ⟨fun b hb => h _ (hf.bindings b hb), fun x hx => h _ (hf.owned x hx)⟩

theorem Frame.Resolves.bind {heap : Heap} {frame : Frame} (hf : frame.Resolves heap) (name : String)
    {h : Handle} (hr : heap.resolves h = true) :
    Frame.Resolves heap { frame with bindings := frame.bindings.bind name h } := by
  refine ⟨fun b hb => ?_, hf.owned⟩
  rcases List.mem_cons.1 hb with rfl | hb
  · exact hr
  · exact hf.bindings b (List.mem_filter.1 hb).1

theorem Frame.Resolves.own {heap : Heap} {frame : Frame} (hf : frame.Resolves heap)
    (hs : List Handle) (hr : ∀ h ∈ hs, heap.resolves h = true) :
    Frame.Resolves heap { frame with owned := hs ++ frame.owned } := by
  refine ⟨hf.bindings, fun h hh => ?_⟩
  rcases List.mem_append.1 hh with hh | hh
  · exact hr h hh
  · exact hf.owned h hh

namespace State.Intact

variable {s : State}

theorem initial (entry size : Nat) (meter : Meter) : (State.initial entry size meter).Intact := by
  refine ⟨Heap.freeSound_empty, ?_, by simp [State.initial], ?_⟩
  · intro i elements h
    simp [State.initial, Heap.empty, Heap.valueAt?_eq] at h
  · intro frame hf
    obtain rfl : frame = .entered size := by
      simpa [State.initial, State.frames, Stack.empty] using hf
    exact ⟨by simp [Frame.entered], by simp [Frame.entered]⟩

theorem current (hs : s.Intact) : s.frame.Resolves s.heap :=
  hs.frames _ (List.mem_cons_self ..)

theorem caller (hs : s.Intact) {frame : Frame} (hf : frame ∈ s.callers.items) :
    frame.Resolves s.heap :=
  hs.frames _ (List.mem_cons_of_mem _ hf)

/-- Another stack whose handles resolve. -/
theorem withStack (hs : s.Intact) {stack : Stack Handle}
    (h : ∀ x ∈ stack.items, s.heap.resolves x = true) : State.Intact { s with stack } :=
  ⟨hs.free, hs.elements, h, hs.frames⟩

/-- Another current frame whose handles resolve. -/
theorem withFrame (hs : s.Intact) {frame : Frame} (h : frame.Resolves s.heap) :
    State.Intact { s with frame } := by
  refine ⟨hs.free, hs.elements, hs.stack, fun f hf => ?_⟩
  rcases List.mem_cons.1 hf with rfl | hf
  · exact h
  · exact hs.caller hf

end State.Intact

theorem State.Intact.setElement {s : State} (hs : s.Intact) (array : Handle) (position : Nat)
    {element : Handle} (hr : s.heap.resolves element = true) :
    State.Intact { s with heap := s.heap.setElement array position element } := by
  have hmono : ∀ x, s.heap.resolves x = true →
      (s.heap.setElement array position element).resolves x = true := by
    intro x hx
    rwa [Heap.resolves_setElement]
  refine ⟨Heap.freeSound_setElement hs.free array position element, ?_,
    fun x hx => hmono x (hs.stack x hx), fun frame hf => (hs.frames frame hf).mono hmono⟩
  intro i elements hv x hx
  rw [Heap.valueAt?_setElement] at hv
  split at hv
  · obtain ⟨value, hold, hset⟩ := Option.map_eq_some_iff.1 hv
    cases value with
    | int value => cases hset
    | array old =>
      cases hset
      rcases Array.mem_or_eq_of_mem_setIfInBounds hx with hx | rfl
      · exact hmono x (hs.elements i old hold x hx)
      · exact hmono _ hr
  · exact hmono x (hs.elements i elements hv x hx)

/-! ## Actions -/

theorem mem_of_lookup {bindings : Bindings} {name : String} {h : Handle}
    (hl : bindings.lookup name = some h) : (name, h) ∈ bindings := by
  obtain ⟨before, after, rfl, -⟩ := List.lookup_eq_some_iff.1 hl
  simp

namespace Action

/-- What holds where an action stops. -/
def Stopped (cause : Fault.Cause) (s : State) : Prop :=
  s.Intact ∧ cause.kind ≠ .danglingHandle

/-- Started where no handle dangles and `P` holds, an action leaves no dangling handle. -/
abbrev Sound {α : Type} (P : State → Prop) (a : Action α) (Q : α → State → Prop) : Prop :=
  Triple (fun s => s.Intact ∧ P s) a (fun x s => s.Intact ∧ Q x s) Stopped

/-- A handle resolves. -/
abbrev Live (h : Handle) (s : State) : Prop := s.heap.resolves h = true

theorem sound_push (h : Handle) : Sound (Live h) (push h) fun _ _ => True := by
  rintro s ⟨hs, hr⟩
  rw [run_push]
  refine ⟨hs.withStack fun x hx => ?_, trivial⟩
  rcases List.mem_cons.1 hx with rfl | hx
  · exact hr
  · exact hs.stack x hx

theorem sound_pop (opcode : Opcode) : Sound (fun _ => True) (pop opcode) fun h s => Live h s := by
  rintro s ⟨hs, -⟩
  rw [run_pop]
  cases hp : s.stack.pop? with
  | none => exact ⟨hs, by simp [Fault.Cause.kind]⟩
  | some popped =>
    obtain ⟨h, stack⟩ := popped
    have hi := Stack.pop?_eq_some_iff.1 hp
    have hr : ∀ x ∈ h :: stack.items, s.heap.resolves x = true := by
      rw [← Stack.items_push, ← hi]
      exact hs.stack
    exact ⟨hs.withStack fun x hx => hr x (List.mem_cons_of_mem _ hx), hr h (List.mem_cons_self ..)⟩

theorem sound_popPair (opcode : Opcode) : Sound (fun _ => True) (popPair opcode)
    fun pair s => Live pair.1 s ∧ Live pair.2 s := by
  rintro s ⟨hs, -⟩
  rw [run_popPair]
  cases hp : s.stack.popPair? with
  | none => exact ⟨hs, by simp [Fault.Cause.kind]⟩
  | some popped =>
    obtain ⟨top, below, stack⟩ := popped
    have hi := Stack.popPair?_eq_some_iff.1 hp
    have hr : ∀ x ∈ top :: below :: stack.items, s.heap.resolves x = true := by
      rw [← Stack.items_push, ← Stack.items_push, ← hi]
      exact hs.stack
    exact ⟨hs.withStack fun x hx => hr x (by simp [hx]), hr below (by simp), hr top (by simp)⟩

section Reading

/-! Actions that leave the state as it is keep whatever holds of it. -/

variable {P : State → Prop}

theorem sound_check (f : Meter → Except LimitError Unit) : Sound P (check f) fun _ => P := by
  rintro s ⟨hs, hp⟩
  rw [run_check]
  cases f s.meter with
  | ok => exact ⟨hs, hp⟩
  | error e => exact ⟨hs, by cases e <;> simp [Fault.Cause.kind]⟩

theorem sound_intOf {h : Handle} (operation : String) (hl : ∀ s, P s → Live h s) :
    Sound P (intOf h operation) fun _ => P := by
  rintro s ⟨hs, hp⟩
  obtain ⟨value, hv⟩ := Heap.resolves_iff.1 (hl s hp)
  rw [run_intOf, hv]
  cases value with
  | int value => exact ⟨hs, hp⟩
  | array elements => exact ⟨hs, by simp [Fault.Cause.kind]⟩

theorem sound_elementsOf {h : Handle} (operation : String) (hl : ∀ s, P s → Live h s) :
    Sound P (elementsOf h operation) fun elements s =>
      P s ∧ s.heap.get? h = some (.array elements) := by
  rintro s ⟨hs, hp⟩
  obtain ⟨value, hv⟩ := Heap.resolves_iff.1 (hl s hp)
  rw [run_elementsOf, hv]
  cases value with
  | int value => exact ⟨hs, by simp [Fault.Cause.kind]⟩
  | array elements => exact ⟨hs, hp, hv⟩

theorem sound_lookup (name : String) : Sound P (lookup name) fun h s => P s ∧ Live h s := by
  rintro s ⟨hs, hp⟩
  rw [run_lookup]
  cases hl : s.frame.bindings.lookup name with
  | none => exact ⟨hs, by simp [Fault.Cause.kind]⟩
  | some h => exact ⟨hs, hp, hs.current.bindings (name, h) (mem_of_lookup hl)⟩

theorem sound_elementIndex {h : Handle} (name : String) (length : Nat) (hl : ∀ s, P s → Live h s) :
    Sound P (elementIndex h name length) fun _ => P := by
  rintro s ⟨hs, hp⟩
  obtain ⟨value, hv⟩ := Heap.resolves_iff.1 (hl s hp)
  rw [run_elementIndex, hv]
  cases value with
  | int index =>
    show Ends _ _ (if _ then _ else _)
    split
    · exact ⟨hs, hp⟩
    · exact ⟨hs, by simp [Fault.Cause.kind]⟩
  | array elements => exact ⟨hs, by simp [Fault.Cause.kind]⟩

theorem sound_resolve (p : Program) (label : String) : Sound P (resolve p label) fun _ => P := by
  rintro s ⟨hs, hp⟩
  rw [run_resolve]
  cases p.labels.get? label with
  | none => exact ⟨hs, by simp [Fault.Cause.kind]⟩
  | some position => exact ⟨hs, hp⟩

end Reading

theorem intact_allocated {s : State} (hs : s.Intact) (meter : Meter) {value : Value}
    (hc : ∀ h ∈ value.children, Live h s) {h : Handle} {heap : Heap}
    (ha : Heap.Allocated s.heap value h heap) :
    State.Intact { s with meter, heap, frame := { s.frame with owned := h :: s.frame.owned } } := by
  have hmono : ∀ x, s.heap.resolves x = true → heap.resolves x = true := by
    intro x hx
    obtain ⟨v, hv⟩ := Heap.resolves_iff.1 hx
    exact Heap.resolves_iff.2 ⟨v, ha.get?_eq hv⟩
  refine ⟨ha.free, ?_, fun x hx => hmono x (hs.stack x hx), ?_⟩
  · intro i elements hv x hx
    rw [ha.valueAt?_eq] at hv
    split at hv
    · cases hv
      exact hmono x (hc x hx)
    · exact hmono x (hs.elements i elements hv x hx)
  · intro frame hf
    rcases List.mem_cons.1 hf with rfl | hf
    · exact (hs.current.mono hmono).own [h] (by simp [Heap.resolves_iff, ha.found])
    · exact (hs.caller hf).mono hmono

theorem sound_allocate (value : Value) :
    Sound (fun s => ∀ h ∈ value.children, Live h s) (allocate value) fun h s => Live h s := by
  rintro s ⟨hs, hc⟩
  rw [run_allocate]
  cases s.meter.allocate with
  | error e => exact ⟨hs, by cases e <;> simp [Fault.Cause.kind]⟩
  | ok meter =>
    show Ends _ _ (if _ then _ else _)
    split
    · exact ⟨⟨hs.free, hs.elements, hs.stack, hs.frames⟩, by simp [Fault.Cause.kind]⟩
    · have ha := Heap.allocate_spec hs.free value
      exact ⟨intact_allocated hs meter hc ha, Heap.resolves_iff.2 ⟨value, ha.found⟩⟩

theorem sound_pushInt (value : Int) : Sound (fun _ => True) (pushInt value) fun _ _ => True :=
  ((sound_allocate (.int value)).imp (by simp [Value.children]) fun _ _ h => h).bind sound_push

theorem sound_bind (name : String) (h : Handle) : Sound (Live h) (bind name h) fun _ _ => True := by
  rintro s ⟨hs, hr⟩
  exact ⟨hs.withFrame (hs.current.bind name hr), trivial⟩

/-- An action that only reads its state and stops. -/
theorem sound_throw {α : Type} {P : State → Prop} {cause : Fault.Cause} {Q : α → State → Prop}
    (hc : cause.kind ≠ .danglingHandle) : Sound P (throw cause) Q :=
  Triple.throw fun _ hs => ⟨hs.1, hc⟩

/-! ## Instructions -/

theorem sound_pushArgument (arg : String) :
    Sound (fun _ => True) (pushArgument arg) fun _ _ => True := by
  unfold pushArgument
  cases Text.readInt? arg with
  | some value => exact sound_pushInt value
  | none =>
    exact ((sound_lookup arg).imp (fun _ h => h) fun _ _ h => ⟨h.1, h.2.2⟩).bind sound_push

theorem sound_applyOperator (opcode : Opcode) (op : BinaryOp) :
    Sound (fun _ => True) (applyOperator opcode op) fun _ _ => True := by
  refine (sound_popPair opcode).bind ?_
  rintro ⟨lhs, rhs⟩
  refine (sound_intOf _ fun _ h => h.1).bind fun a => (sound_intOf _ fun _ h => h.2).bind fun b => ?_
  cases op.apply a b with
  | ok value => exact (sound_pushInt value).imp (fun _ h => ⟨h.1, trivial⟩) fun _ _ h => h
  | error e => exact sound_throw (by cases e <;> simp [Fault.Cause.kind])

theorem sound_negate : Sound (fun _ => True) negate fun _ _ => True := by
  refine (sound_pop .neg).bind fun h => (sound_intOf _ fun _ h => h).bind fun a => ?_
  exact (sound_pushInt (-a)).imp (fun _ h => ⟨h.1, trivial⟩) fun _ _ h => h

theorem sound_makeArray (name : String) :
    Sound (fun _ => True) (makeArray name) fun _ _ => True := by
  refine (sound_pop .array).bind fun h => (sound_intOf _ fun _ h => h).bind fun size => ?_
  split
  · exact sound_throw (by simp [Fault.Cause.kind])
  · refine (sound_check _).bind fun _ => ?_
    split
    · exact sound_throw (by simp [Fault.Cause.kind])
    · refine ((sound_allocate (.int 0)).imp (fun s h => ⟨h.1, by simp [Value.children]⟩)
        fun _ _ h => h).bind fun zero => ?_
      refine ((sound_allocate _).imp (fun s h => ⟨h.1, ?_⟩) fun _ _ h => h).bind fun array =>
        sound_bind name array
      intro x hx
      rw [Array.eq_of_mem_replicate hx]
      exact h.2

theorem sound_print (h : Handle) : Sound (Live h) (print h) fun _ _ => True := by
  rintro s ⟨hs, hr⟩
  obtain ⟨object, ho⟩ := Heap.exists_objectWithin hs.elements (s.heap.slots.size + 1) [] hr
  have hrender : s.heap.render h = .ok object.text := by
    rw [Heap.render_eq, Heap.unfolding, ho]
    rfl
  rw [run_print, hrender]
  exact ⟨⟨hs.free, hs.elements, hs.stack, hs.frames⟩, trivial⟩

theorem sound_readElement (name : String) :
    Sound (fun _ => True) (readElement name) fun _ _ => True := by
  refine (sound_pop .access).bind fun h => (sound_lookup name).bind fun array => ?_
  refine (sound_elementsOf _ fun _ h => h.2).bind fun elements => ?_
  refine (sound_elementIndex name _ fun _ h => h.1.1).bind fun index => ?_
  split
  · rename_i inside
    refine (sound_push _).imp (fun s h => ⟨h.1, ?_⟩) fun _ _ h => h
    exact h.1.elements _ elements (Heap.valueAt?_of_get? h.2.2) _ (Array.getElem_mem inside)
  · exact Triple.pure fun _ h => ⟨h.1, trivial⟩

theorem sound_writeElement (name : String) :
    Sound (fun _ => True) (writeElement name) fun _ _ => True := by
  refine (sound_popPair .pop).bind ?_
  rintro ⟨value, h⟩
  refine (sound_lookup name).bind fun array => ?_
  refine (sound_elementsOf _ fun _ h => h.2).bind fun elements => ?_
  refine (sound_elementIndex name _ fun _ h => h.1.1.2).bind fun index => ?_
  exact Triple.modify fun s h => ⟨h.1.setElement array index h.2.1.1.1, trivial⟩

theorem sound_pushLength (name : String) :
    Sound (fun _ => True) (pushLength name) fun _ _ => True := by
  refine (sound_lookup name).bind fun array => ?_
  refine (sound_elementsOf _ fun _ h => h.2).bind fun elements => ?_
  exact (sound_pushInt _).imp (fun _ h => ⟨h.1, trivial⟩) fun _ _ h => h

theorem sound_jumpIfZero (p : Program) (label : String) :
    Sound (fun _ => True) (jumpIfZero p label) fun _ _ => True := by
  refine (sound_resolve p label).bind fun target => (sound_pop .jz).bind fun h => ?_
  refine (sound_intOf _ fun _ h => h).bind fun value => ?_
  exact Triple.pure fun _ h => ⟨h.1, trivial⟩

theorem sound_enter (p : Program) (label : String) :
    Sound (fun _ => True) (enter p label) fun _ _ => True := by
  refine (sound_resolve p label).bind fun target => ?_
  rintro s ⟨hs, -⟩
  have hc := sound_check (P := fun _ => True) (Meter.checkDepth s.depth) s ⟨hs, trivial⟩
  simp only [EStateM.run_bind, EStateM.run_get]
  cases hr : (check (Meter.checkDepth s.depth)).run s with
  | error e t =>
    rw [hr] at hc
    exact hc
  | ok _ t =>
    rw [hr] at hc
    refine ⟨⟨hc.1.free, hc.1.elements, hc.1.stack, fun frame hf => ?_⟩, trivial⟩
    rcases List.mem_cons.1 hf with rfl | hf
    · exact ⟨by simp [Frame.entered], by simp [Frame.entered]⟩
    · exact hc.1.frames frame hf

theorem sound_leave (count : String) : Sound (fun _ => True) (leave count) fun _ _ => True := by
  rintro s ⟨hs, -⟩
  rw [run_leave]
  cases Text.readCount? count with
  | none => exact ⟨hs, by simp [Fault.Cause.kind]⟩
  | some count =>
    cases hp : s.callers.pop? with
    | none => exact ⟨hs, trivial⟩
    | some popped =>
      obtain ⟨caller, callers⟩ := popped
      have hi := Stack.pop?_eq_some_iff.1 hp
      have hall : ∀ frame ∈ caller :: callers.items, frame.Resolves s.heap := by
        intro frame hf
        rw [← Stack.items_push, ← hi] at hf
        exact hs.caller hf
      show Ends _ _ (if _ then _ else _)
      split
      · exact ⟨hs, by simp [Fault.Cause.kind]⟩
      · refine ⟨⟨hs.free, hs.elements, hs.stack, fun frame hf => ?_⟩, trivial⟩
        rcases List.mem_cons.1 hf with rfl | hf
        · exact (hall caller (by simp)).own _ fun h hh => hs.stack h (List.mem_of_mem_take hh)
        · exact hall frame (List.mem_cons_of_mem _ hf)

/-- An action that is followed by the next instruction. -/
theorem sound_next {a : Action Unit} (ha : Sound (fun _ => True) a fun _ _ => True) :
    Sound (fun _ => True) (do a; return Control.next) fun _ _ => True :=
  ha.bind fun _ => Triple.pure fun _ h => h

/-- No instruction leaves a handle dangling or fails by one. -/
theorem sound_execute (i : Instruction) (p : Program) :
    Sound (fun _ => True) (i.execute p) fun _ _ => True := by
  unfold Instruction.execute
  split
  · exact sound_next (sound_pushArgument _)
  · exact sound_next ((sound_pop _).bind fun _ => Triple.pure fun _ h => ⟨h.1, trivial⟩)
  · exact (sound_pop _).bind fun h => (sound_bind _ h).bind fun _ => Triple.pure fun _ h => h
  · exact sound_next (sound_writeElement _)
  · exact (sound_pop _).bind fun h => (sound_print h).bind fun _ => Triple.pure fun _ h => h
  · exact sound_next sound_negate
  · exact sound_next (sound_applyOperator _ _)
  · exact sound_jumpIfZero p _
  · exact (sound_resolve p _).bind fun _ => Triple.pure fun _ h => h
  · exact sound_enter p _
  · exact sound_leave _
  · exact sound_next (sound_makeArray _)
  · exact sound_next (sound_readElement _)
  · exact sound_next (sound_pushLength _)
  · exact sound_throw (by simp [Fault.Cause.kind])

end Action

/-! ## Collections -/

namespace State

variable {s : State}

theorem Intact.collect (hs : s.Intact) : s.collect.2.Intact := by
  have hc := Heap.closed_mark s.heap s.roots
  -- what the roots lead to keeps resolving
  have hkeep : ∀ h, Heap.isMarked (s.heap.mark s.roots.toArray) h.index = true →
      s.heap.resolves h = true → s.collect.2.heap.resolves h = true := by
    intro h hm hr
    obtain ⟨value, hv⟩ := Heap.resolves_iff.1 hr
    exact Heap.resolves_iff.2 ⟨value, (Heap.get?_collected hm).trans hv⟩
  have hstack : ∀ h ∈ s.stack.items, h ∈ s.roots := fun h hh => List.mem_append_left _ hh
  have hbindings : ∀ frame ∈ s.frames, ∀ b ∈ frame.bindings, b.2 ∈ s.roots := by
    intro frame hf b hb
    exact List.mem_append_right _ (List.mem_flatMap.2 ⟨frame, hf, List.mem_map.2 ⟨b, hb, rfl⟩⟩)
  refine ⟨Heap.freeSound_collected hs.free _, ?_, ?_, ?_⟩
  · intro i elements hv h hh
    obtain ⟨hm, hv⟩ := Heap.valueAt?_collected hv
    have hr := hs.elements i elements hv h hh
    exact hkeep h (hc.elements i elements hm hv h hh hr) hr
  · intro h hh
    exact hkeep h (hc.roots h (hstack h hh) (hs.stack h hh)) (hs.stack h hh)
  · intro frame hf
    obtain ⟨old, ho, rfl⟩ : ∃ old ∈ s.frames, frame = old.prune (s.heap.mark s.roots.toArray) := by
      rcases List.mem_cons.1 hf with rfl | hf
      · exact ⟨s.frame, List.mem_cons_self .., rfl⟩
      · obtain ⟨old, ho, rfl⟩ := List.mem_map.1 hf
        exact ⟨old, List.mem_cons_of_mem _ ho, rfl⟩
    have hr := hs.frames old ho
    refine ⟨fun b hb => ?_, fun h hh => ?_⟩
    · exact hkeep b.2 (hc.roots b.2 (hbindings old ho b hb) (hr.bindings b hb)) (hr.bindings b hb)
    · obtain ⟨hh, hm⟩ := List.mem_filter.1 hh
      exact hkeep h hm (hr.owned h hh)

theorem Intact.afterInstruction (hs : s.Intact) (opcode : Opcode) :
    (s.afterInstruction opcode).2.Intact := by
  have hcount : (if isCounted opcode then s.count else s).Intact := by
    split
    · exact ⟨hs.free, hs.elements, hs.stack, hs.frames⟩
    · exact hs
  rw [State.afterInstruction]
  generalize (if isCounted opcode then s.count else s) = t at hcount
  dsimp only
  split
  · exact hcount.collect
  · exact hcount

theorem Intact.apply (hs : s.Intact) (control : Control) : (control.apply s).Intact := by
  cases control with
  | halt => exact hs
  | _ => exact ⟨hs.free, hs.elements, hs.stack, hs.frames⟩

end State

/-! ## Runs -/

namespace Program

/-- What a run leaves where no handle dangles, and how it may end. -/
def Safe (ending : Option Ending) (s : State) : Prop :=
  s.Intact ∧ ∀ fault, ending = some (.failed fault) → fault.cause.kind ≠ .danglingHandle

theorem safe_turn (p : Program) {s : State} (hs : s.Intact) :
    Safe (p.turn s).ending (p.turn s).state := by
  unfold turn
  split
  · exact ⟨hs, by simp⟩
  · rename_i i hi
    have he := Action.sound_execute i p s ⟨hs, trivial⟩
    dsimp only
    cases hr : (i.execute p).run s with
    | error cause t =>
      rw [hr] at he
      refine ⟨he.1, ?_⟩
      rintro fault hf
      cases hf
      exact he.2
    | ok control t =>
      rw [hr] at he
      refine ⟨(he.1.afterInstruction i.opcode).apply control, ?_⟩
      intro fault hf
      cases control <;> cases hf

theorem safe_runFrom {σ : Type} (p : Program) (observe : σ → Event → σ) (turns : Nat) {s : State}
    (hs : s.Intact) (start : σ) :
    Safe (p.runFrom observe turns s start).ending (p.runFrom observe turns s start).state := by
  induction turns generalizing s start with
  | zero => exact ⟨hs, by simp [runFrom]⟩
  | succ turns ih =>
    have ht := p.safe_turn hs
    rw [runFrom]
    cases he : (p.turn s).ending with
    | none => exact ih ht.1 _
    | some ending =>
      rw [he] at ht
      exact ht

end Program

/-! ## Final values -/

theorem State.outermost_mem_frames (s : State) : s.outermost ∈ s.frames := by
  unfold outermost frames
  rw [List.getLastD_eq_getLast?]
  cases h : s.callers.items.getLast? with
  | none => simp
  | some frame => exact List.mem_cons_of_mem _ (List.mem_of_getLast? h)

theorem State.Intact.exists_outcome {s : State} (hs : s.Intact) :
    ∃ outcome, s.outcome = .ok outcome := by
  have hobject : ∀ h, s.heap.resolves h = true → ∃ object, s.heap.object h = .ok object :=
    fun h hr => Heap.exists_objectWithin hs.elements _ _ hr
  obtain ⟨stack, hstack⟩ := Heap.exists_mapM_ok s.heap.object
    s.stack.items.reverse fun h hh => hobject h (hs.stack h (List.mem_reverse.1 hh))
  obtain ⟨globals, hglobals⟩ : ∃ globals, s.heap.variables s.outermost.bindings = .ok globals := by
    refine Heap.exists_mapM_ok _ _ fun binding hb => ?_
    have hb := (List.mergeSort_perm ..).mem_iff.1 hb
    obtain ⟨object, ho⟩ := hobject binding.2
      ((hs.frames _ s.outermost_mem_frames).bindings binding hb)
    exact ⟨(binding.1, object), by rw [ho]; rfl⟩
  refine ⟨⟨stack, globals, s.heap.stats s.collections⟩, ?_⟩
  simp only [State.outcome, hstack, hglobals]
  rfl

/-- In every state that a run reaches, each handle on the stack, in the variables and the owned values of
every frame and in a live array resolves; so no run fails by a dangling handle, and what it leaves behind
can be told. -/
theorem Program.run_intact {σ : Type} (p : Program) (meter : Meter) (turns : Nat)
    (observe : σ → Event → σ) (start : σ) :
    (p.run meter turns observe start).state.Intact ∧
    (∀ fault, (p.run meter turns observe start).ending = some (.failed fault) →
      fault.cause.kind ≠ .danglingHandle) ∧
    ∃ outcome, (p.run meter turns observe start).state.outcome = .ok outcome := by
  have hs : Safe (p.run meter turns observe start).ending (p.run meter turns observe start).state := by
    unfold run
    cases p.entry? with
    | none => exact ⟨.initial .., by simp [Fault.Cause.kind]⟩
    | some entry => exact p.safe_runFrom observe turns (.initial ..) start
  exact ⟨hs.1, hs.2, hs.1.exists_outcome⟩

end CMinusMinus
