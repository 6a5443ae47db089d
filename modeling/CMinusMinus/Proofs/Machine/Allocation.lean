import CMinusMinus.Proofs.Machine.Turns
import Mathlib.Tactic.Common

/-!
# What an instruction allocates

Most actions leave the heap as it is. The only one that adds a value to it is an allocation, and no instruction
makes more than two of them: a new array comes with the zero that it is filled with.
-/

namespace CMinusMinus

namespace Heap

/-- An allocation takes a slot. -/
theorem live_allocate_le (heap : Heap) (value : Value) : (heap.allocate value).2.live ≤ heap.live + 1 := by
  obtain ⟨slots, free⟩ := heap
  cases free with
  | nil => simp [allocate, live]
  | cons index free =>
    simp only [allocate, live, Array.size_modify, List.length_cons]
    omega

theorem live_setElement (heap : Heap) (array : Handle) (position : Nat) (element : Handle) :
    (heap.setElement array position element).live = heap.live := by
  simp [setElement, live]

end Heap

namespace Action

variable {α β : Type}

/-! ## Actions that leave the heap -/

/-- An action leaves the heap as it is, also where it stops. -/
def LeavesHeap (a : Action α) : Prop :=
  ∀ s, (a.final s).heap = s.heap

theorem LeavesHeap.bind {a : Action α} {f : α → Action β} (ha : LeavesHeap a) (hf : ∀ x, LeavesHeap (f x)) :
    LeavesHeap (a >>= f) := by
  intro s
  have h := ha s
  rw [final_bind]
  rw [final] at h
  cases hr : a.run s with
  | ok x t =>
    rw [hr] at h
    exact (hf x t).trans h
  | error cause t =>
    rw [hr] at h
    exact h

theorem leavesHeap_pure (x : α) : LeavesHeap (pure x) :=
  fun _ => rfl

theorem leavesHeap_throw (cause : Fault.Cause) : LeavesHeap (throw cause : Action α) :=
  fun _ => rfl

theorem leavesHeap_push (h : Handle) : LeavesHeap (push h) :=
  fun _ => rfl

theorem leavesHeap_bind (name : String) (h : Handle) : LeavesHeap (bind name h) :=
  fun _ => rfl

theorem leavesHeap_pop (opcode : Opcode) : LeavesHeap (pop opcode) := by
  intro s
  rw [final, run_pop]
  cases s.stack.pop? <;> rfl

theorem leavesHeap_popPair (opcode : Opcode) : LeavesHeap (popPair opcode) := by
  intro s
  rw [final, run_popPair]
  cases s.stack.popPair? <;> rfl

theorem leavesHeap_check (f : Meter → Except LimitError Unit) : LeavesHeap (check f) := by
  intro s
  rw [final, run_check]
  cases f s.meter <;> rfl

theorem leavesHeap_intOf (h : Handle) (operation : String) : LeavesHeap (intOf h operation) := by
  intro s
  rw [final, run_intOf]
  rcases s.heap.get? h with _ | value | elements <;> rfl

theorem leavesHeap_elementsOf (h : Handle) (operation : String) : LeavesHeap (elementsOf h operation) := by
  intro s
  rw [final, run_elementsOf]
  rcases s.heap.get? h with _ | value | elements <;> rfl

theorem leavesHeap_lookup (name : String) : LeavesHeap (lookup name) := by
  intro s
  rw [final, run_lookup]
  cases s.frame.bindings.lookup name <;> rfl

theorem leavesHeap_print (h : Handle) : LeavesHeap (print h) := by
  intro s
  rw [final, run_print]
  cases s.heap.render h <;> rfl

theorem leavesHeap_elementIndex (h : Handle) (name : String) (length : Nat) :
    LeavesHeap (elementIndex h name length) := by
  refine (leavesHeap_intOf h _).bind fun index => ?_
  split
  · exact leavesHeap_pure _
  · exact leavesHeap_throw _

theorem leavesHeap_readElement (name : String) : LeavesHeap (readElement name) := by
  refine (leavesHeap_pop .access).bind fun h => (leavesHeap_lookup name).bind fun array => ?_
  refine (leavesHeap_elementsOf array _).bind fun elements => ?_
  refine (leavesHeap_elementIndex h name _).bind fun index => ?_
  split
  · exact leavesHeap_push _
  · exact leavesHeap_pure _

theorem leavesHeap_resolve (p : Program) (label : String) : LeavesHeap (resolve p label) := by
  unfold resolve
  cases p.labels.get? label with
  | some position => exact leavesHeap_pure position
  | none => exact leavesHeap_throw _

theorem leavesHeap_jumpIfZero (p : Program) (label : String) : LeavesHeap (jumpIfZero p label) :=
  (leavesHeap_resolve p label).bind fun _ => (leavesHeap_pop .jz).bind fun h =>
    (leavesHeap_intOf h _).bind fun _ => leavesHeap_pure _

theorem leavesHeap_enter (p : Program) (label : String) : LeavesHeap (enter p label) := by
  intro s
  rw [final, run_enter]
  cases p.labels.get? label with
  | none => rfl
  | some target =>
    dsimp only
    cases s.meter.checkDepth s.depth <;> rfl

theorem leavesHeap_leave (count : String) : LeavesHeap (leave count) := by
  intro s
  rw [final, run_leave]
  cases Text.readCount? count with
  | none => rfl
  | some number =>
    dsimp only
    cases s.callers.pop? with
    | none => rfl
    | some popped =>
      dsimp only
      by_cases hlt : s.stack.height < number
      · rw [if_pos hlt]
      · rw [if_neg hlt]

/-! ## Allocations -/

/-- An action adds at most `n` values to the heap, also where it stops. -/
def Adds (n : Nat) (a : Action α) : Prop :=
  ∀ s, (a.final s).heap.live ≤ s.heap.live + n

theorem LeavesHeap.adds {a : Action α} (ha : LeavesHeap a) : Adds 0 a :=
  fun s => Nat.le_of_eq (by rw [ha s, Nat.add_zero])

theorem Adds.mono {a : Action α} {m n : Nat} (ha : Adds m a) (hmn : m ≤ n) : Adds n a :=
  fun s => Nat.le_trans (ha s) (Nat.add_le_add_left hmn _)

theorem Adds.bind {a : Action α} {f : α → Action β} {m n : Nat} (ha : Adds m a) (hf : ∀ x, Adds n (f x)) :
    Adds (m + n) (a >>= f) := by
  intro s
  have h := ha s
  rw [final_bind]
  rw [final] at h
  cases hr : a.run s with
  | ok x t =>
    rw [hr] at h
    have h' := hf x t
    dsimp only at h ⊢
    omega
  | error cause t =>
    rw [hr] at h
    dsimp only at h ⊢
    omega

/-- What comes behind an action that leaves the heap, adds what both do. -/
theorem LeavesHeap.bind_adds {a : Action α} {f : α → Action β} {n : Nat} (ha : LeavesHeap a)
    (hf : ∀ x, Adds n (f x)) : Adds n (a >>= f) := by
  have h := ha.adds.bind hf
  rwa [Nat.zero_add] at h

theorem adds_allocate (value : Value) : Adds 1 (allocate value) := by
  intro s
  rw [final, run_allocate]
  cases s.meter.allocate with
  | error e => exact Nat.le_succ _
  | ok meter =>
    dsimp only
    by_cases hf : s.heap.isFull = true
    · rw [if_pos hf]
      exact Nat.le_succ _
    · rw [if_neg hf]
      exact s.heap.live_allocate_le value

theorem adds_pushInt (value : Int) : Adds 1 (pushInt value) :=
  (adds_allocate _).bind fun h => (leavesHeap_push h).adds

theorem adds_pushArgument (arg : String) : Adds 1 (pushArgument arg) := by
  unfold pushArgument
  cases Text.readInt? arg with
  | some value => exact adds_pushInt value
  | none => exact ((leavesHeap_lookup arg).bind fun h => leavesHeap_push h).adds.mono (Nat.zero_le 1)

theorem adds_applyOperator (opcode : Opcode) (op : BinaryOp) : Adds 1 (applyOperator opcode op) := by
  refine (leavesHeap_popPair opcode).bind_adds fun pair => ?_
  refine (leavesHeap_intOf _ _).bind_adds fun a => (leavesHeap_intOf _ _).bind_adds fun b => ?_
  cases op.apply a b with
  | ok value => exact adds_pushInt value
  | error e => exact (leavesHeap_throw _).adds.mono (Nat.zero_le 1)

theorem adds_negate : Adds 1 negate :=
  (leavesHeap_pop .neg).bind_adds fun h => (leavesHeap_intOf h _).bind_adds fun _ => adds_pushInt _

theorem adds_pushLength (name : String) : Adds 1 (pushLength name) :=
  (leavesHeap_lookup name).bind_adds fun array => (leavesHeap_elementsOf array _).bind_adds fun _ =>
    adds_pushInt _

theorem adds_makeArray (name : String) : Adds 2 (makeArray name) := by
  refine (leavesHeap_pop .array).bind_adds fun h => (leavesHeap_intOf h _).bind_adds fun size => ?_
  split
  · exact (leavesHeap_throw _).adds.mono (Nat.zero_le 2)
  · refine (leavesHeap_check _).bind_adds fun _ => ?_
    split
    · exact (leavesHeap_throw _).adds.mono (Nat.zero_le 2)
    · exact (adds_allocate _).bind fun zero => (adds_allocate _).bind fun array =>
        (leavesHeap_bind name array).adds

theorem adds_writeElement (name : String) : Adds 0 (writeElement name) := by
  refine (leavesHeap_popPair .pop).bind_adds fun pair => (leavesHeap_lookup name).bind_adds fun array => ?_
  refine (leavesHeap_elementsOf array _).bind_adds fun elements => ?_
  refine (leavesHeap_elementIndex _ name _).bind_adds fun index => ?_
  exact fun s => Nat.le_of_eq (s.heap.live_setElement array index _)

/-- No instruction adds more values than the one that makes an array. -/
theorem adds_execute (p : Program) (i : Instruction) : Adds 2 (i.execute p) := by
  obtain ⟨opcode, args⟩ := i
  have hnext : ∀ {a : Action Unit} {n : Nat}, Adds n a → n ≤ 2 →
      Adds 2 (a >>= fun _ => pure Control.next) :=
    fun ha hn => (ha.bind fun _ => (leavesHeap_pure _).adds).mono hn
  have hleaves : ∀ {a : Action Control}, LeavesHeap a → Adds 2 a := fun ha => ha.adds.mono (by decide)
  unfold Instruction.execute
  dsimp only
  split
  · exact hnext (adds_pushArgument _) (by decide)
  · exact hnext ((leavesHeap_pop _).bind fun _ => leavesHeap_pure _).adds (by decide)
  · exact (leavesHeap_pop _).bind_adds fun h => hnext (leavesHeap_bind _ h).adds (by decide)
  · exact hnext (adds_writeElement _) (by decide)
  · exact (leavesHeap_pop _).bind_adds fun h => hnext (leavesHeap_print h).adds (by decide)
  · exact hnext adds_negate (by decide)
  · exact hnext (adds_applyOperator _ _) (by decide)
  · exact hleaves (leavesHeap_jumpIfZero p _)
  · exact hleaves ((leavesHeap_resolve p _).bind fun _ => leavesHeap_pure _)
  · exact hleaves (leavesHeap_enter p _)
  · exact hleaves (leavesHeap_leave _)
  · exact hnext (adds_makeArray _) (by decide)
  · exact hleaves ((leavesHeap_readElement _).bind fun _ => leavesHeap_pure _)
  · exact hnext (adds_pushLength _) (by decide)
  · exact hleaves (leavesHeap_throw _)

end Action

theorem Program.live_executed_le (p : Program) (s : State) :
    (p.executed s).heap.live ≤ s.heap.live + 2 := by
  unfold executed
  cases p.instructions[s.position]? with
  | none => exact Nat.le_add_right ..
  | some i => exact Action.adds_execute p i s

end CMinusMinus
