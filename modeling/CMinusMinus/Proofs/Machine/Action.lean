import CMinusMinus.Machine.Step
import Mathlib.Tactic.Common

/-!
# What the machine's actions do

For each action the result that it has in a state, as one equation. The laws of the machine are derived
from these equations and do not open the actions again.
-/

namespace CMinusMinus

/-! ## Stacks -/

theorem Stack.popPair?_eq_some_iff {α : Type} {s t : Stack α} {top below : α} :
    s.popPair? = some (top, below, t) ↔ s = (t.push below).push top := by
  unfold popPair?
  constructor
  · intro h
    obtain ⟨⟨a, u⟩, hu, h⟩ := Option.bind_eq_some_iff.1 h
    obtain ⟨⟨b, v⟩, hv, h⟩ := Option.bind_eq_some_iff.1 h
    cases h
    rw [pop?_eq_some_iff.1 hu, pop?_eq_some_iff.1 hv]
  · rintro rfl
    rfl

/-! ## Meters -/

/-- An allocation that is allowed is counted, and changes nothing else of the meter. -/
theorem Meter.allocate_eq_ok {meter meter' : Meter} (h : meter.allocate = .ok meter') :
    meter = plain ∧ meter' = plain ∨ ∃ limits allocated freed,
      meter = counting limits allocated freed ∧ meter' = counting limits (allocated + 1) freed := by
  cases meter with
  | plain =>
    cases h
    exact .inl ⟨rfl, rfl⟩
  | counting limits allocated freed =>
    refine .inr ⟨limits, allocated, freed, rfl, ?_⟩
    unfold allocate at h
    dsimp only at h
    split at h
    · split at h <;> cases h
      rfl
    · cases h
      rfl

namespace Action

variable (s : State)

/-! ## The stack -/

theorem run_push (h : Handle) : (push h).run s = .ok () { s with stack := s.stack.push h } := rfl

theorem run_pop (opcode : Opcode) : (pop opcode).run s =
    match s.stack.pop? with
    | none => .error (.underflow opcode 1 0) s
    | some (h, stack) => .ok h { s with stack } := by
  simp only [pop, EStateM.run_bind, EStateM.run_get]
  cases s.stack.pop? <;> rfl

theorem run_popPair (opcode : Opcode) : (popPair opcode).run s =
    match s.stack.popPair? with
    | none => .error (.underflow opcode 2 s.stack.height) s
    | some (top, below, stack) => .ok (below, top) { s with stack } := by
  simp only [popPair, EStateM.run_bind, EStateM.run_get]
  cases s.stack.popPair? <;> rfl

/-! ## Limits -/

theorem run_check (f : Meter → Except LimitError Unit) : (check f).run s =
    match f s.meter with
    | .ok () => .ok () s
    | .error e => .error (.limit e) s := by
  simp only [check, EStateM.run_bind, EStateM.run_get]
  cases f s.meter <;> rfl

theorem run_countAllocation : countAllocation.run s =
    match s.meter.allocate with
    | .ok meter => .ok () { s with meter }
    | .error e => .error (.limit e) s := by
  simp only [countAllocation, EStateM.run_bind, EStateM.run_get]
  cases s.meter.allocate <;> rfl

theorem run_checkRoom : checkRoom.run s =
    if s.heap.isFull then
      .error (.limit (.allocation (Heap.capacity - 1) (s.heap.slots.size + 1))) s
    else .ok () s := by
  simp only [checkRoom, EStateM.run_bind, EStateM.run_get]
  split <;> rfl

theorem run_allocate (value : Value) : (allocate value).run s =
    match s.meter.allocate with
    | .ok meter =>
      if s.heap.isFull then
        .error (.limit (.allocation (Heap.capacity - 1) (s.heap.slots.size + 1))) { s with meter }
      else
        let (h, heap) := s.heap.allocate value
        .ok h { s with meter, heap, frame := { s.frame with owned := h :: s.frame.owned } }
    | .error e => .error (.limit e) s := by
  simp only [allocate, EStateM.run_bind, run_countAllocation]
  cases s.meter.allocate with
  | ok meter =>
    by_cases hf : s.heap.isFull <;> simp only [run_checkRoom, hf] <;> rfl
  | error e => rfl

/-! ## Values -/

theorem run_valueOf (h : Handle) : (valueOf h).run s =
    match s.heap.get? h with
    | some value => .ok value s
    | none => .error (.dangling h) s := by
  simp only [valueOf, EStateM.run_bind, EStateM.run_get]
  cases s.heap.get? h <;> rfl

theorem run_intOf (h : Handle) (operation : String) : (intOf h operation).run s =
    match s.heap.get? h with
    | some (.int value) => .ok value s
    | some (.array _) => .error (.notInteger operation) s
    | none => .error (.dangling h) s := by
  simp only [intOf, EStateM.run_bind, run_valueOf]
  rcases s.heap.get? h with _ | value | elements <;> rfl

theorem run_elementsOf (h : Handle) (operation : String) : (elementsOf h operation).run s =
    match s.heap.get? h with
    | some (.array elements) => .ok elements s
    | some (.int _) => .error (.notArray operation) s
    | none => .error (.dangling h) s := by
  simp only [elementsOf, EStateM.run_bind, run_valueOf]
  rcases s.heap.get? h with _ | value | elements <;> rfl

theorem run_lookup (name : String) : (lookup name).run s =
    match s.frame.bindings.lookup name with
    | some h => .ok h s
    | none => .error (.unboundName name) s := by
  simp only [lookup, EStateM.run_bind, EStateM.run_get]
  cases s.frame.bindings.lookup name <;> rfl

theorem run_print (h : Handle) : (print h).run s =
    match s.heap.render h with
    | .ok text => .ok () { s with output := s.output ++ text ++ "\n" }
    | .error h => .error (.dangling h) s := by
  simp only [print, EStateM.run_bind, EStateM.run_get]
  cases s.heap.render h <;> rfl

theorem run_elementIndex (h : Handle) (name : String) (length : Nat) :
    (elementIndex h name length).run s =
    match s.heap.get? h with
    | some (.int index) =>
      if 0 ≤ index ∧ index < length then .ok index.toNat s else .error (.badIndex index name length) s
    | some (.array _) => .error (.notInteger "index") s
    | none => .error (.dangling h) s := by
  simp only [elementIndex, EStateM.run_bind, run_intOf]
  rcases s.heap.get? h with _ | index | elements
  · rfl
  · show EStateM.run (if _ then _ else _) s = if _ then _ else _
    split <;> rfl
  · rfl

/-! ## Labels -/

theorem run_resolve (p : Program) (label : String) : (resolve p label).run s =
    match p.labels.get? label with
    | some position => .ok position s
    | none => .error (.unresolvedLabel label) s := by
  rw [resolve]
  cases p.labels.get? label <;> rfl

theorem run_jumpIfZero (p : Program) (label : String) : (jumpIfZero p label).run s =
    match p.labels.get? label with
    | some target =>
      match s.stack.pop? with
      | some (h, stack) =>
        match s.heap.get? h with
        | some (.int value) => .ok (if value = 0 then .jump target else .next) { s with stack }
        | some (.array _) => .error (.notInteger Opcode.jz.name) { s with stack }
        | none => .error (.dangling h) { s with stack }
      | none => .error (.underflow .jz 1 0) s
    | none => .error (.unresolvedLabel label) s := by
  simp only [jumpIfZero, EStateM.run_bind, run_resolve]
  cases p.labels.get? label with
  | none => rfl
  | some target =>
    simp only [run_pop]
    cases s.stack.pop? with
    | none => rfl
    | some popped =>
      simp only [run_intOf]
      rcases s.heap.get? popped.1 with _ | value | elements <;> rfl

/-! ## Frames -/

theorem run_enter (p : Program) (label : String) : (enter p label).run s =
    match p.labels.get? label with
    | some target =>
      match s.meter.checkDepth s.depth with
      | .ok () => .ok (.enter label target)
        { s with frame := .entered (s.position + 1), callers := s.callers.push s.frame }
      | .error e => .error (.limit e) s
    | none => .error (.unresolvedLabel label) s := by
  simp only [enter, EStateM.run_bind, run_resolve]
  cases p.labels.get? label with
  | none => rfl
  | some target =>
    simp only [EStateM.run_get, run_check]
    cases s.meter.checkDepth s.depth <;> rfl

theorem run_leave (count : String) : (leave count).run s =
    match Text.readCount? count with
    | none => .error (.badCount count) s
    | some count =>
      match s.callers.pop? with
      | none => .ok .halt s
      | some (caller, callers) =>
        if s.stack.height < count then .error (.underflow .ret count s.stack.height) s
        else .ok (.leave s.frame.returnAddress) { s with
          frame := { caller with owned := s.stack.items.take count ++ caller.owned }, callers } := by
  simp only [leave, EStateM.run_bind, EStateM.run_get]
  cases Text.readCount? count with
  | none => rfl
  | some count =>
    cases s.callers.pop? with
    | none => rfl
    | some popped =>
      dsimp only
      split <;> rfl

end Action

end CMinusMinus
