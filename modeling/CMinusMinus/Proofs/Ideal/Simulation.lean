import CMinusMinus.Proofs.Ideal.Picture
import Mathlib.Logic.Function.Basic

/-!
# The machine follows its picture

Started in a state and its picture, the machine and the one without a heap do the same, one instruction
after the other, until the machine stops for a reason that the other one does not know: there is no slot
for another value or, where the picture is not limited, a limit is exceeded.
-/

namespace CMinusMinus

/-! ## Related actions -/

/-- There is no slot for another value. -/
def Fault.Cause.IsArena (cause : Cause) : Prop :=
  ∃ slots ≥ Heap.capacity, cause = .limit (.allocation (Heap.capacity - 1) (slots + 1))

/-- A cause that the machine without a heap does not know. -/
def Fault.Cause.Excused (cause : Cause) : Bool → Prop
  | true => cause.IsArena
  | false => cause.kind = .recursionError ∨ cause.kind = .memoryError

theorem excused_limit (e : LimitError) : (Fault.Cause.limit e).Excused false := by
  cases e with
  | depth limit depth => exact .inl rfl
  | _ => exact .inr rfl

/-- What holds of the addresses of arrays, a state and a picture. -/
abbrev Relation := (Nat → Nat) → State → Ideal.State → Prop

/-- The result of the machine is pictured by the other one, or its error is excused. -/
def Follows {α β : Type} (limited : Bool) (Q : α → β → Relation) :
    EStateM.Result Fault.Cause State α → EStateM.Result Fault.Cause Ideal.State β → Prop
  | .ok x s, .ok y t => ∃ address, Picture limited address s t ∧ Q x y address s t
  | .ok _ _, .error _ _ => False
  | .error cause _, .ok _ _ => cause.Excused limited
  | .error cause s, .error cause' t =>
    cause.Excused limited ∨ cause = cause' ∧ ∃ address, Picture limited address s t

/-- Started where `P` holds, the action `a` follows the action `b` to where `Q` holds. -/
def Simulates {α β : Type} (limited : Bool) (P : Relation) (a : Action α) (b : Ideal.Action β)
    (Q : α → β → Relation) : Prop :=
  ∀ address s t, Picture limited address s t → P address s t →
    Follows limited Q (a.run s) (b.run t)

section Logic

variable {α β γ δ : Type} {limited : Bool} {P : Relation}

theorem follows_excused {Q : α → β → Relation} {cause : Fault.Cause} {s : State}
    (h : cause.Excused limited) (r : EStateM.Result Fault.Cause Ideal.State β) :
    Follows limited Q (.error cause s) r := by
  cases r with
  | ok y t => exact h
  | error cause' t => exact .inl h

theorem follows_error {Q : α → β → Relation} {address : Nat → Nat} {s : State} {t : Ideal.State}
    (hp : Picture limited address s t) (cause : Fault.Cause) :
    Follows limited Q (.error cause s : EStateM.Result Fault.Cause State α) (.error cause t) :=
  .inr ⟨rfl, address, hp⟩

namespace Simulates

theorem bind {a : Action α} {b : Ideal.Action β} {f : α → Action γ} {g : β → Ideal.Action δ}
    {Q : α → β → Relation} {R : γ → δ → Relation} (ha : Simulates limited P a b Q)
    (hf : ∀ x y, Simulates limited (Q x y) (f x) (g y) R) :
    Simulates limited P (a >>= f) (b >>= g) R := by
  intro address s t hp hP
  have ha := ha address s t hp hP
  rw [EStateM.run_bind, EStateM.run_bind]
  cases hr : a.run s with
  | ok x s' =>
    rw [hr] at ha
    cases hr' : b.run t with
    | ok y t' =>
      rw [hr'] at ha
      obtain ⟨address', hp', hQ⟩ := ha
      exact hf x y address' s' t' hp' hQ
    | error cause t' =>
      rw [hr'] at ha
      exact ha.elim
  | error cause s' =>
    rw [hr] at ha
    cases hr' : b.run t with
    | ok y t' =>
      rw [hr'] at ha
      exact follows_excused ha _
    | error cause' t' =>
      rw [hr'] at ha
      exact ha

theorem pure {Q : α → β → Relation} {x : α} {y : β} (h : ∀ address s t, P address s t → Q x y address s t) :
    Simulates limited P (pure x) (pure y) Q :=
  fun address s t hp hP => ⟨address, hp, h address s t hP⟩

theorem throw {Q : α → β → Relation} (cause : Fault.Cause) :
    Simulates limited P (throw cause) (throw cause) Q :=
  fun _ _ _ hp _ => follows_error hp cause

/-- Equal values are one value. -/
theorem ofEq {f : α → Action γ} {g : α → Ideal.Action δ} {R : γ → δ → Relation}
    (hf : ∀ x, Simulates limited P (f x) (g x) R) (x y : α) :
    Simulates limited (fun address s t => x = y ∧ P address s t) (f x) (g y) R := by
  rintro address s t hp ⟨rfl, hP⟩
  exact hf x address s t hp hP

theorem imp {a : Action α} {b : Ideal.Action β} {P' : Relation} {Q : α → β → Relation}
    (ha : Simulates limited P a b Q) (h : ∀ address s t, P' address s t → P address s t) :
    Simulates limited P' a b Q :=
  fun address s t hp hP => ha address s t hp (h address s t hP)

end Simulates

end Logic

/-! ## Actions -/

section Actions

variable {limited : Bool} {P : Relation}

/-- Nothing in particular. -/
abbrev Anything : Relation := fun _ _ _ => True

/-- A handle resolves, and stands for a datum. -/
abbrev Stands (h : Handle) (datum : Datum) : Relation := fun address s _ =>
  s.heap.resolves h = true ∧ datum = s.heap.datum address h

theorem Stands.int {h : Handle} {datum : Datum} {address : Nat → Nat} {s : State} {t : Ideal.State}
    {value : Int} (hd : Stands h datum address s t) (hv : s.heap.get? h = some (.int value)) :
    datum = .int value := by
  rw [hd.2, Heap.datum_int _ hv]

theorem Stands.array {h : Handle} {datum : Datum} {address : Nat → Nat} {s : State} {t : Ideal.State}
    {elements : Array Handle} (hd : Stands h datum address s t)
    (hv : s.heap.get? h = some (.array elements)) : datum = .array (address h.index) := by
  rw [hd.2, Heap.datum_array _ hv]

theorem simulates_push {h : Handle} {datum : Datum} :
    Simulates limited (Stands h datum) (Action.push h) (Ideal.push datum) fun _ _ => Anything := by
  intro address s t hp hd
  refine ⟨address, ⟨(Action.sound_push h s ⟨hp.intact, hd.1⟩).1, hp.heap, hp.meter, ?_, hp.frame,
    hp.callers, hp.position, hp.output⟩, trivial⟩
  show datum :: t.stack = _
  rw [hd.2, hp.stack]
  rfl

theorem simulates_pop (opcode : Opcode) :
    Simulates limited Anything (Action.pop opcode) (Ideal.pop opcode) Stands := by
  intro address s t hp _
  have hs := Action.sound_pop opcode s ⟨hp.intact, trivial⟩
  rw [Action.run_pop] at hs ⊢
  rw [Ideal.run_pop, hp.stack]
  cases hpop : s.stack.pop? with
  | none =>
    rw [Stack.pop?_eq_none_iff.1 hpop]
    exact follows_error hp _
  | some popped =>
    obtain ⟨h, stack⟩ := popped
    rw [hpop] at hs
    rw [Stack.pop?_eq_some_iff.1 hpop]
    exact ⟨address, ⟨hs.1, hp.heap, hp.meter, rfl, hp.frame, hp.callers, hp.position, hp.output⟩,
      hs.2, rfl⟩

theorem simulates_popPair (opcode : Opcode) :
    Simulates limited Anything (Action.popPair opcode) (Ideal.popPair opcode) fun x y address s t =>
      Stands x.1 y.1 address s t ∧ Stands x.2 y.2 address s t := by
  intro address s t hp _
  have hs := Action.sound_popPair opcode s ⟨hp.intact, trivial⟩
  rw [Action.run_popPair] at hs ⊢
  rw [Ideal.run_popPair, hp.stack]
  cases hpop : s.stack.popPair? with
  | none =>
    have hheight := s.stack.height_eq
    rcases hitems : s.stack.items with _ | ⟨a, _ | ⟨b, items⟩⟩
    · rw [hheight, hitems]
      exact follows_error hp _
    · rw [hheight, hitems]
      exact follows_error hp _
    · have hstack : s.stack = ((⟨items, items.length, rfl⟩ : Stack Handle).push b).push a :=
        Stack.ext hitems
      rw [Stack.popPair?_eq_some_iff.2 hstack] at hpop
      cases hpop
  | some popped =>
    obtain ⟨top, below, stack⟩ := popped
    rw [hpop] at hs
    rw [Stack.popPair?_eq_some_iff.1 hpop]
    exact ⟨address, ⟨hs.1, hp.heap, hp.meter, rfl, hp.frame, hp.callers, hp.position, hp.output⟩,
      ⟨hs.2.1, rfl⟩, hs.2.2, rfl⟩

/-! Reading changes nothing, so whatever held holds afterwards. -/

theorem simulates_intOf {h : Handle} {datum : Datum} (operation : String)
    (hd : ∀ address s t, P address s t → Stands h datum address s t) :
    Simulates limited P (Action.intOf h operation) (Ideal.intOf datum operation)
      fun v w address s t => v = w ∧ P address s t := by
  intro address s t hp hP
  have hd := hd address s t hP
  obtain ⟨value, hv⟩ := Heap.resolves_iff.1 hd.1
  rw [Action.run_intOf, hv, Ideal.run_intOf]
  cases value with
  | int value =>
    rw [hd.int hv]
    exact ⟨address, hp, rfl, hP⟩
  | array elements =>
    rw [hd.array hv]
    exact follows_error hp _

theorem simulates_elementsOf {h : Handle} {datum : Datum} (operation : String)
    (hd : ∀ address s t, P address s t → Stands h datum address s t) :
    Simulates limited P (Action.elementsOf h operation) (Ideal.addressOf datum operation)
      fun elements place address s t => P address s t ∧
        s.heap.get? h = some (.array elements) ∧ place = address h.index := by
  intro address s t hp hP
  have hd := hd address s t hP
  obtain ⟨value, hv⟩ := Heap.resolves_iff.1 hd.1
  rw [Action.run_elementsOf, hv, Ideal.run_addressOf]
  cases value with
  | int value =>
    rw [hd.int hv]
    exact follows_error hp _
  | array elements =>
    rw [hd.array hv]
    exact ⟨address, hp, hP, hv, rfl⟩

theorem lookup_picture (heap : Heap) (address : Nat → Nat) (bindings : Bindings) (name : String) :
    (bindings.map fun b => (b.1, heap.datum address b.2)).lookup name =
      (bindings.lookup name).map (heap.datum address) := by
  induction bindings with
  | nil => rfl
  | cons b bindings ih =>
    obtain ⟨key, h⟩ := b
    simp only [List.map_cons, List.lookup_cons]
    cases name == key with
    | true => rfl
    | false => exact ih

theorem simulates_lookup (name : String) :
    Simulates limited P (Action.lookup name) (Ideal.lookup name) fun h datum address s t =>
      P address s t ∧ Stands h datum address s t := by
  intro address s t hp hP
  have hs := Action.sound_lookup (P := fun _ => True) name s ⟨hp.intact, trivial⟩
  rw [Action.run_lookup] at hs ⊢
  rw [Ideal.run_lookup, hp.frame, Frame.picture, lookup_picture]
  cases hl : s.frame.bindings.lookup name with
  | none => exact follows_error hp _
  | some h =>
    rw [hl] at hs
    exact ⟨address, hp, hP, hs.2.2, rfl⟩

theorem simulates_elementIndex {h : Handle} {datum : Datum} (name : String) {length length' : Nat}
    (hl : length = length') (hd : ∀ address s t, P address s t → Stands h datum address s t) :
    Simulates limited P (Action.elementIndex h name length) (Ideal.elementIndex datum name length')
      fun i j address s t => i = j ∧ P address s t := by
  subst hl
  refine (simulates_intOf "index" hd).bind (Simulates.ofEq fun index => ?_)
  split
  · exact Simulates.pure fun _ _ _ hP => ⟨rfl, hP⟩
  · exact Simulates.throw _

theorem simulates_resolve (p : Program) (label : String) :
    Simulates limited P (Action.resolve p label) (Ideal.resolve p label)
      fun i j address s t => i = j ∧ P address s t := by
  intro address s t hp hP
  rw [Action.run_resolve, Ideal.run_resolve]
  cases p.labels.get? label with
  | none => exact follows_error hp _
  | some target => exact ⟨address, hp, rfl, hP⟩

theorem simulates_check {f : Meter → Except LimitError Unit} (hf : ∀ m : Meter, f m.unfreed = f m) :
    Simulates limited P (Action.check f) (Ideal.check f) fun _ _ => P := by
  intro address s t hp hP
  rw [Action.run_check, Ideal.run_check, hp.meter]
  cases limited with
  | true =>
    simp only [if_true, Option.map_some, hf]
    cases f s.meter with
    | ok => exact ⟨address, hp, hP⟩
    | error e => exact follows_error hp _
  | false =>
    cases f s.meter with
    | ok => exact ⟨address, hp, hP⟩
    | error e => exact follows_excused (excused_limit e) _

/-! ### Changes -/

theorem frame_bind_picture (heap : Heap) (address : Nat → Nat) (frame : Frame) (name : String)
    (h : Handle) :
    (frame.picture heap address).bind name (heap.datum address h) =
      Frame.picture heap address { frame with bindings := frame.bindings.bind name h } := by
  simp only [Frame.picture, Ideal.Frame.bind, Bindings.bind, List.map_cons, List.filter_map]
  rfl

theorem simulates_bind (name : String) {h : Handle} {datum : Datum} :
    Simulates limited (Stands h datum) (Action.bind name h) (Ideal.bind name datum)
      fun _ _ => Anything := by
  intro address s t hp hd
  refine ⟨address, ⟨(Action.sound_bind name h s ⟨hp.intact, hd.1⟩).1, hp.heap, hp.meter, hp.stack, ?_,
    hp.callers, hp.position, hp.output⟩, trivial⟩
  show t.frame.bind name datum = _
  rw [hp.frame, hd.2]
  exact frame_bind_picture _ _ _ _ _

theorem simulates_print {h : Handle} {datum : Datum} :
    Simulates limited (Stands h datum) (Action.print h) (Ideal.print datum) fun _ _ => Anything := by
  intro address s t hp hd
  have hs := Action.sound_print h s ⟨hp.intact, hd.1⟩
  rw [Action.run_print, hp.render_eq hd.1] at hs ⊢
  refine ⟨address, ⟨hs.1, hp.heap, hp.meter, hp.stack, hp.frame, hp.callers, hp.position, ?_⟩, trivial⟩
  show t.output ++ t.memory.text datum ++ "\n" = _
  rw [hp.output, hd.2]

/-! ### Allocations -/

theorem allocate_unfreed (m : Meter) : m.unfreed.allocate = m.allocate.map Meter.unfreed := by
  cases m with
  | plain => rfl
  | counting limits allocated freed =>
    obtain ⟨allocations, interval, depth, arrayLength⟩ := limits
    cases allocations with
    | none => rfl
    | some limit =>
      simp only [Meter.unfreed, Meter.allocate]
      split <;> rfl

/-- A slot that is filled was vacant, so handles that resolve are to other slots. -/
theorem keeps_allocated {heap heap' : Heap} {value : Value} {h : Handle} {address address' : Nat → Nat}
    (ha : Heap.Allocated heap value h heap') (haddress : ∀ i, i ≠ h.index → address' i = address i) :
    Keeps heap heap' address address' := by
  intro x hx
  obtain ⟨v, hv⟩ := Heap.resolves_iff.1 hx
  refine Heap.datum_congr ((ha.get?_eq hv).trans hv.symm) (haddress _ ?_)
  intro hi
  have hat := Heap.valueAt?_of_get? hv
  rw [hi, ha.vacant] at hat
  cases hat

theorem picture_allocated {address address' : Nat → Nat} {s : State} {t : Ideal.State}
    {value : Value} {h : Handle} {heap : Heap} {meter : Meter} {memory : Memory}
    (hp : Picture limited address s t) (ha : Heap.Allocated s.heap value h heap)
    (haddress : ∀ i, i ≠ h.index → address' i = address i)
    (hi : State.Intact { s with meter, heap, frame := { s.frame with owned := h :: s.frame.owned } })
    (hm : heap.Pictured address' memory) :
    Picture limited address'
      { s with meter, heap, frame := { s.frame with owned := h :: s.frame.owned } }
      { t with meter := if limited then some meter.unfreed else none, memory } := by
  have hk := keeps_allocated ha haddress
  refine ⟨hi, hm, rfl, hp.stack.trans (hk.map_eq hp.intact.stack).symm,
    hp.frame.trans (hk.frame_eq hp.intact.current).symm, hp.callers.trans ?_, hp.position, hp.output⟩
  exact (List.map_congr_left fun frame hf => hk.frame_eq (hp.intact.caller hf)).symm

/-- The elements of old arrays stand for the same after an allocation. -/
theorem arrays_allocated {address address' : Nat → Nat} {s : State} {t : Ideal.State} {value : Value}
    {h : Handle} {heap : Heap} (hp : Picture limited address s t)
    (ha : Heap.Allocated s.heap value h heap) (haddress : ∀ i, i ≠ h.index → address' i = address i)
    {i : Nat} (hi : i ≠ h.index) {elements : Array Handle}
    (hv : heap.valueAt? i = some (.array elements)) :
    s.heap.valueAt? i = some (.array elements) ∧
      t.memory[address' i]? = some (elements.toList.map (heap.datum address')) := by
  rw [ha.valueAt?_eq, if_neg hi] at hv
  refine ⟨hv, ?_⟩
  rw [haddress i hi, hp.heap.arrays i elements hv,
    (keeps_allocated ha haddress).map_eq fun x hx => hp.intact.elements i elements hv x (by simpa using hx)]

theorem pictured_allocated_int {address : Nat → Nat} {s : State} {t : Ideal.State} {value : Int}
    {h : Handle} {heap : Heap} (hp : Picture limited address s t)
    (ha : Heap.Allocated s.heap (.int value) h heap) : heap.Pictured address t.memory := by
  have hne : ∀ i elements, heap.valueAt? i = some (.array elements) → i ≠ h.index := by
    rintro i elements hv rfl
    rw [ha.valueAt?_eq, if_pos rfl] at hv
    cases hv
  have hold := fun i elements hv =>
    arrays_allocated hp ha (fun _ _ => rfl) (hne i elements hv) hv
  exact ⟨fun i elements hv => (hold i elements hv).2, fun i j elements elements' hi hj =>
    hp.heap.injective i j elements elements' (hold i elements hi).1 (hold j elements' hj).1⟩

theorem pictured_allocated_array {address : Nat → Nat} {s : State} {t : Ideal.State}
    {elements : Array Handle} {h : Handle} {heap : Heap} (hp : Picture limited address s t)
    (ha : Heap.Allocated s.heap (.array elements) h heap)
    (hr : ∀ x ∈ elements, s.heap.resolves x = true) :
    heap.Pictured (Function.update address h.index t.memory.length)
      (t.memory ++ [elements.toList.map (s.heap.datum address)]) := by
  have haddress : ∀ i, i ≠ h.index →
      Function.update address h.index t.memory.length i = address i :=
    fun i hi => Function.update_of_ne hi ..
  have hk := keeps_allocated ha haddress
  -- old arrays lie below the new one
  have hlow : ∀ i es, s.heap.valueAt? i = some (.array es) → address i < t.memory.length :=
    fun i es hv => (List.getElem?_eq_some_iff.1 (hp.heap.arrays i es hv)).1
  constructor
  · intro i es hv
    by_cases hi : i = h.index
    · subst hi
      rw [ha.valueAt?_eq, if_pos rfl] at hv
      cases hv
      rw [Function.update_self, List.getElem?_append_right (Nat.le_refl _), Nat.sub_self,
        hk.map_eq fun x hx => hr x (by simpa using hx)]
      rfl
    · obtain ⟨hv, hm⟩ := arrays_allocated hp ha haddress hi hv
      rw [← hm, List.getElem?_append_left]
      rw [haddress i hi]
      exact hlow i es hv
  · intro i j es es' hi hj he
    by_cases hih : i = h.index
    · by_cases hjh : j = h.index
      · rw [hih, hjh]
      · have hj := (arrays_allocated hp ha haddress hjh hj).1
        rw [hih, Function.update_self, haddress j hjh] at he
        exact absurd he (Nat.ne_of_gt (hlow j es' hj))
    · have hi := (arrays_allocated hp ha haddress hih hi).1
      by_cases hjh : j = h.index
      · rw [hjh, Function.update_self, haddress i hih] at he
        exact absurd he (Nat.ne_of_lt (hlow i es hi))
      · have hj := (arrays_allocated hp ha haddress hjh hj).1
        rw [haddress i hih, haddress j hjh] at he
        exact hp.heap.injective i j es es' hi hj he

/-- Putting a value into the heap follows counting, where what comes after the counting goes on from the
new slot. -/
theorem follows_allocate {β : Type} {address : Nat → Nat} {s : State} {t : Ideal.State} {value : Value}
    {g : Ideal.Action β} {Q : Handle → β → Relation} (hp : Picture limited address s t)
    (hg : ∀ h heap meter, Heap.Allocated s.heap value h heap →
      Follows limited Q
        (.ok h { s with meter, heap, frame := { s.frame with owned := h :: s.frame.owned } })
        (g.run { t with meter := if limited then some meter.unfreed else none })) :
    Follows limited Q ((Action.allocate value).run s) ((Ideal.count >>= fun _ => g).run t) := by
  rw [Action.run_allocate, EStateM.run_bind, Ideal.run_count]
  cases limited with
  | true =>
    have hmeter : t.meter = some s.meter.unfreed := hp.meter
    simp only [hmeter, Option.map_some, allocate_unfreed]
    cases s.meter.allocate with
    | error e => exact follows_error hp _
    | ok meter =>
      show Follows true Q (if _ then _ else _) _
      split
      · rename_i hf
        have hsize : s.heap.slots.size ≥ Heap.capacity := by
          simp only [Heap.isFull, Bool.and_eq_true, decide_eq_true_eq] at hf
          exact hf.2
        have harena : (Fault.Cause.limit (.allocation (Heap.capacity - 1)
            (s.heap.slots.size + 1))).Excused true := ⟨_, hsize, rfl⟩
        exact follows_excused harena _
      · exact hg _ _ meter (Heap.allocate_spec hp.intact.free value)
  | false =>
    have hmeter : t.meter = none := hp.meter
    have ht : t = { t with meter := none } := by rw [← hmeter]
    simp only [hmeter, Option.map_none]
    cases s.meter.allocate with
    | error e => exact follows_excused (excused_limit e) _
    | ok meter =>
      show Follows false Q (if _ then _ else _) _
      split
      · exact follows_excused (excused_limit _) _
      · rw [ht]
        exact hg _ _ meter (Heap.allocate_spec hp.intact.free value)

theorem simulates_allocateInt (value : Int) :
    Simulates limited Anything (Action.allocate (.int value)) Ideal.count
      fun h _ => Stands h (.int value) := by
  intro address s t hp _
  have hc : ∀ x ∈ (Value.int value).children, s.heap.resolves x = true := by simp [Value.children]
  rw [← bind_pure Ideal.count]
  refine follows_allocate (g := pure ()) hp fun h heap meter ha => ?_
  refine ⟨address, picture_allocated hp ha (fun _ _ => rfl)
    (Action.intact_allocated hp.intact meter hc ha) (pictured_allocated_int hp ha), ?_⟩
  exact ⟨Heap.resolves_iff.2 ⟨_, ha.found⟩, (Heap.datum_int _ ha.found).symm⟩

theorem simulates_allocateArray {elements : Array Handle} {data : List Datum} :
    Simulates limited (fun address s _ => (∀ x ∈ elements, s.heap.resolves x = true) ∧
        data = elements.toList.map (s.heap.datum address))
      (Action.allocate (.array elements)) (Ideal.allocateArray data) Stands := by
  rintro address s t hp ⟨hr, rfl⟩
  have hc : ∀ x ∈ (Value.array elements).children, s.heap.resolves x = true := hr
  refine follows_allocate hp fun h heap meter ha => ?_
  have hpicture := picture_allocated hp ha (fun i hi => Function.update_of_ne hi ..)
    (Action.intact_allocated hp.intact meter hc ha) (pictured_allocated_array hp ha hr)
  refine ⟨_, hpicture, Heap.resolves_iff.2 ⟨_, ha.found⟩, ?_⟩
  rw [Heap.datum_array _ ha.found, Function.update_self]

theorem simulates_pushInt (value : Int) :
    Simulates limited Anything (Action.pushInt value) (Ideal.pushInt value) fun _ _ => Anything :=
  (simulates_allocateInt value).bind fun _ _ => simulates_push

/-! ### Elements -/

section Stores

variable {heap : Heap} {array element : Handle} {elements : Array Handle} {index : Nat}
  (hat : heap.valueAt? array.index = some (.array elements))
include hat

/-- An array after a store is the old one, or the one that was stored into. -/
theorem valueAt?_of_setElement {i : Nat} {es : Array Handle}
    (h : (heap.setElement array index element).valueAt? i = some (.array es)) :
    (i = array.index ∧ es = elements.setIfInBounds index element) ∨
      (i ≠ array.index ∧ heap.valueAt? i = some (.array es)) := by
  rw [Heap.valueAt?_setElement] at h
  split at h
  · rename_i hi
    rw [hi, hat] at h
    cases h
    exact .inl ⟨hi, rfl⟩
  · rename_i hi
    exact .inr ⟨hi, h⟩

theorem live_of_setElement {i : Nat} {es : Array Handle}
    (h : (heap.setElement array index element).valueAt? i = some (.array es)) :
    ∃ es', heap.valueAt? i = some (.array es') := by
  rcases valueAt?_of_setElement hat h with ⟨rfl, -⟩ | ⟨-, h⟩
  · exact ⟨elements, hat⟩
  · exact ⟨es, h⟩

theorem pictured_setElement {address : Nat → Nat} {memory : Memory}
    (hp : heap.Pictured address memory) :
    (heap.setElement array index element).Pictured address
      (memory.store (address array.index) index (heap.datum address element)) := by
  have hmap : ∀ hs : List Handle, hs.map ((heap.setElement array index element).datum address) =
      hs.map (heap.datum address) :=
    fun hs => List.map_congr_left fun x _ => heap.datum_setElement address array index element x
  refine ⟨fun i es h => ?_, fun i j es es' hi hj => ?_⟩
  · show (List.modify memory _ _)[address i]? = _
    rw [List.getElem?_modify, hmap]
    rcases valueAt?_of_setElement hat h with ⟨rfl, rfl⟩ | ⟨hi, h⟩
    · rw [hp.arrays _ _ hat, Array.toList_setIfInBounds, List.map_set]
      exact congrArg some (if_pos rfl)
    · have hne : address array.index ≠ address i :=
        fun he => hi (hp.injective array.index i elements es hat h he).symm
      rw [hp.arrays i es h]
      exact congrArg some (if_neg hne)
  · obtain ⟨ei, hi⟩ := live_of_setElement hat hi
    obtain ⟨ej, hj⟩ := live_of_setElement hat hj
    exact hp.injective i j ei ej hi hj

end Stores

theorem simulates_setElement {array element : Handle} {elements : Array Handle} {place : Nat}
    {datum : Datum} (index : Nat) :
    Simulates limited (fun address s t => Stands element datum address s t ∧
        s.heap.get? array = some (.array elements) ∧ place = address array.index)
      (modify fun s => { s with heap := s.heap.setElement array index element } : Action Unit)
      (modify fun t => { t with memory := t.memory.store place index datum } : Ideal.Action Unit)
      fun _ _ => Anything := by
  rintro address s t hp ⟨⟨hr, rfl⟩, hv, rfl⟩
  have hk : Keeps s.heap (s.heap.setElement array index element) address address :=
    fun x _ => s.heap.datum_setElement address array index element x
  have hcallers := List.map_congr_left fun frame hf => hk.frame_eq (hp.intact.caller hf)
  exact ⟨address, ⟨hp.intact.setElement array index hr,
    pictured_setElement (Heap.valueAt?_of_get? hv) hp.heap, hp.meter,
    hp.stack.trans (hk.map_eq hp.intact.stack).symm,
    hp.frame.trans (hk.frame_eq hp.intact.current).symm, hp.callers.trans hcallers.symm, hp.position,
    hp.output⟩, trivial⟩

/-- The elements of an array in memory are those of the heap. -/
theorem simulates_elementsAt {α : Type} {h : Handle} {elements : Array Handle} {place : Nat}
    {f : Action α} {g : List Datum → Ideal.Action α} {R : α → α → Relation}
    (hP : ∀ address s t, P address s t →
      s.heap.get? h = some (.array elements) ∧ place = address h.index)
    (hf : ∀ data, elements.size = data.length → Simulates limited
      (fun address s t => P address s t ∧ data = elements.toList.map (s.heap.datum address)) f
      (g data) R) :
    Simulates limited P f (Ideal.elementsAt place >>= g) R := by
  intro address s t hp hPs
  obtain ⟨hv, rfl⟩ := hP address s t hPs
  have hdata := hp.elements_eq hv
  exact hf _ (by simp [hdata]) address s t hp ⟨hPs, hdata⟩

/-- An element of an array stands for the datum at its place in memory. -/
theorem stands_element {address : Nat → Nat} {s : State} {t : Ideal.State}
    (hp : Picture limited address s t) {h : Handle} {elements : Array Handle} {data : List Datum}
    (hv : s.heap.get? h = some (.array elements)) (hd : data = elements.toList.map (s.heap.datum address))
    {index : Nat} (hi : index < elements.size) (hi' : index < data.length) :
    Stands elements[index] data[index] address s t := by
  subst hd
  refine ⟨hp.intact.elements _ elements (Heap.valueAt?_of_get? hv) _ (Array.getElem_mem hi), ?_⟩
  rw [List.getElem_map, Array.getElem_toList]

end Actions

end CMinusMinus
