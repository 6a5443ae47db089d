import CMinusMinus.Code.Assembly
import CMinusMinus.Proofs.Machine.Action

/-!
# Primitive actions

Every instruction is put together from the same primitive actions, each of which reads the state or changes
one part of it. A law of the machine that holds of the primitives, and of two actions one after the other if
it holds of both, holds of every instruction. Three things depend on the instruction: only a store replaces
elements, and the form of an instruction and the labels of the program decide which causes it stops for.
-/

namespace CMinusMinus

/-! ## Instructions -/

/-- The instructions that replace an element of an array. -/
def Instruction.Stores (i : Instruction) : Prop :=
  ∃ marker name, i = ⟨.pop, [marker, name]⟩

/-- An instruction that stops for its form fails the reader's checks, and one that stops for a label names
one that is not defined. -/
structure Instruction.Admits (p : Program) (i : Instruction) (cause : Fault.Cause) : Prop where
  form : cause.kind = .invalidInstruction → i.validate ≠ .ok ()
  label : ∀ label, cause = .unresolvedLabel label → p.labels.get? label = none

theorem Instruction.accepts_of_validate {i : Instruction} (h : i.validate = .ok ()) :
    i.opcode.accepts i.args.length = true := by
  unfold validate at h
  split at h
  · cases h
  · rename_i haccepts
    simpa using haccepts

theorem Instruction.isSome_readCount? {count : String} (h : validate ⟨.ret, [count]⟩ = .ok ()) :
    (Text.readCount? count).isSome = true := by
  cases hcount : Text.readCount? count with
  | some number => rfl
  | none => simp [validate, Opcode.accepts, badArgument?, hcount] at h

theorem Instruction.admits_limit {p : Program} {i : Instruction} (e : LimitError) :
    i.Admits p (.limit e) :=
  ⟨by cases e <;> nofun, nofun⟩

theorem Instruction.admits_arithmetic {p : Program} {i : Instruction} (e : ArithmeticError) :
    i.Admits p (.arithmetic e) :=
  ⟨nofun, nofun⟩

theorem Instruction.admits_unresolvedLabel {p : Program} {i : Instruction} {label : String}
    (h : p.labels.get? label = none) : i.Admits p (.unresolvedLabel label) := by
  refine ⟨nofun, fun name hname => ?_⟩
  cases hname
  exact h

namespace Action

/-! ## Primitives -/

/-- An action that is put together from primitive ones, as an instruction of a program may. -/
inductive Built (p : Program) (i : Instruction) : {α : Type} → Action α → Prop where
  | pure {α : Type} (x : α) : Built p i (pure x)
  | throw {α : Type} {cause : Fault.Cause} (h : i.Admits p cause) : Built p i (throw cause : Action α)
  | bind {α β : Type} {a : Action α} {f : α → Action β} (ha : Built p i a) (hf : ∀ x, Built p i (f x)) :
    Built p i (a >>= f)
  | push (h : Handle) : Built p i (push h)
  | pop (opcode : Opcode) : Built p i (pop opcode)
  | popPair (opcode : Opcode) : Built p i (popPair opcode)
  | checkLength (length : Nat) : Built p i (check (Meter.checkArrayLength length))
  | allocate (value : Value) : Built p i (allocate value)
  | valueOf (h : Handle) : Built p i (valueOf h)
  | lookup (name : String) : Built p i (lookup name)
  | bindName (name : String) (h : Handle) : Built p i (bind name h)
  | print (h : Handle) : Built p i (print h)
  | store (hi : i.Stores) (array : Handle) (index : Nat) (value : Handle) :
    Built p i (modify fun s => { s with heap := s.heap.setElement array index value })
  | enter (label : String) : Built p i (enter p label)
  | leave {count : String} (h : i.validate = .ok () → (Text.readCount? count).isSome) :
    Built p i (leave count)

section Built

variable {p : Program} {i : Instruction}

theorem built_pushInt (value : Int) : Built p i (pushInt value) :=
  .bind (.allocate _) fun h => .push h

theorem built_intOf (h : Handle) (operation : String) : Built p i (intOf h operation) := by
  refine .bind (.valueOf h) fun value => ?_
  cases value with
  | int value => exact .pure value
  | array elements => exact .throw ⟨nofun, nofun⟩

theorem built_elementsOf (h : Handle) (operation : String) : Built p i (elementsOf h operation) := by
  refine .bind (.valueOf h) fun value => ?_
  cases value with
  | int value => exact .throw ⟨nofun, nofun⟩
  | array elements => exact .pure elements

theorem built_pushArgument (arg : String) : Built p i (pushArgument arg) := by
  unfold pushArgument
  cases Text.readInt? arg with
  | some value => exact built_pushInt value
  | none => exact .bind (.lookup arg) fun h => .push h

theorem built_applyOperator (opcode : Opcode) (op : BinaryOp) : Built p i (applyOperator opcode op) := by
  refine .bind (.popPair opcode) fun pair => ?_
  refine .bind (built_intOf _ _) fun a => .bind (built_intOf _ _) fun b => ?_
  cases op.apply a b with
  | ok value => exact built_pushInt value
  | error e => exact .throw (Instruction.admits_arithmetic e)

theorem built_negate : Built p i negate :=
  .bind (.pop .neg) fun h => .bind (built_intOf h _) fun _ => built_pushInt _

theorem built_elementIndex (h : Handle) (name : String) (length : Nat) :
    Built p i (elementIndex h name length) := by
  refine .bind (built_intOf h _) fun index => ?_
  split
  · exact .pure _
  · exact .throw ⟨nofun, nofun⟩

theorem built_makeArray (name : String) : Built p i (makeArray name) := by
  refine .bind (.pop .array) fun h => .bind (built_intOf h _) fun size => ?_
  split
  · exact .throw ⟨nofun, nofun⟩
  · refine .bind (.checkLength _) fun _ => ?_
    split
    · exact .throw ⟨nofun, nofun⟩
    · exact .bind (.allocate _) fun zero => .bind (.allocate _) fun h => .bindName name h

theorem built_readElement (name : String) : Built p i (readElement name) := by
  refine .bind (.pop .access) fun h => .bind (.lookup name) fun array => ?_
  refine .bind (built_elementsOf array _) fun elements => .bind (built_elementIndex h name _) fun index => ?_
  split
  · exact .push _
  · exact .pure _

theorem built_writeElement (hi : i.Stores) (name : String) : Built p i (writeElement name) := by
  refine .bind (.popPair .pop) fun pair => .bind (.lookup name) fun array => ?_
  refine .bind (built_elementsOf array _) fun elements => ?_
  exact .bind (built_elementIndex _ name _) fun index => .store hi array index _

theorem built_pushLength (name : String) : Built p i (pushLength name) :=
  .bind (.lookup name) fun array => .bind (built_elementsOf array _) fun _ => built_pushInt _

theorem built_resolve (label : String) : Built p i (resolve p label) := by
  unfold resolve
  cases h : p.labels.get? label with
  | some position => exact .pure position
  | none => exact .throw (Instruction.admits_unresolvedLabel h)

theorem built_jumpIfZero (label : String) : Built p i (jumpIfZero p label) :=
  .bind (built_resolve label) fun _ => .bind (.pop .jz) fun h => .bind (built_intOf h _) fun _ => .pure _

theorem built_execute (p : Program) (i : Instruction) : Built p i (i.execute p) := by
  obtain ⟨opcode, args⟩ := i
  have hnext : ∀ {a : Action Unit}, Built p ⟨opcode, args⟩ a →
      Built p ⟨opcode, args⟩ (a >>= fun _ => Pure.pure Control.next) :=
    fun ha => .bind ha fun _ => .pure _
  unfold Instruction.execute
  dsimp only
  split
  · exact hnext (built_pushArgument _)
  · exact .bind (.bind (.pop _) fun _ => .pure ()) fun _ => .pure _
  · exact .bind (.pop _) fun h => hnext (.bindName _ h)
  · exact hnext (built_writeElement ⟨_, _, rfl⟩ _)
  · exact .bind (.pop _) fun h => hnext (.print h)
  · exact hnext built_negate
  · exact hnext (built_applyOperator _ _)
  · exact built_jumpIfZero _
  · exact .bind (built_resolve _) fun _ => .pure _
  · exact .enter _
  · exact .leave Instruction.isSome_readCount?
  · exact hnext (built_makeArray _)
  · exact hnext (built_readElement _)
  · exact hnext (built_pushLength _)
  · refine .throw ⟨fun _ hvalid => ?_, nofun⟩
    have haccepts := Instruction.accepts_of_validate hvalid
    -- Every number of arguments that an operation may have has a case of its own above.
    rcases args with _ | ⟨a, _ | ⟨b, _ | ⟨c, args⟩⟩⟩ <;> cases opcode <;>
      simp [Opcode.accepts] at haccepts <;> grind

end Built

end Action

/-! ## Changes -/

/-- What a primitive action of an instruction makes of a state, where the arena may be `full` or not. -/
inductive State.Change (i : Instruction) (full : Prop) (s : State) : State → Prop where
  | none : Change i full s s
  | stack (stack : Stack Handle) : Change i full s { s with stack }
  | allocate {meter : Meter} (h : s.meter.allocate = .ok meter) (value : Value) : Change i full s { s with
      meter
      heap := (s.heap.allocate value).2
      frame := { s.frame with owned := (s.heap.allocate value).1 :: s.frame.owned } }
  /-- An allocation is counted before the arena turns out to be full. -/
  | full {meter : Meter} (h : s.meter.allocate = .ok meter) (hfull : full) : Change i full s { s with meter }
  | bind (name : String) (h : Handle) :
    Change i full s { s with frame := { s.frame with bindings := s.frame.bindings.bind name h } }
  | print (text : String) : Change i full s { s with output := s.output ++ text ++ "\n" }
  | store (hi : i.Stores) (array : Handle) (index : Nat) (value : Handle) :
    Change i full s { s with heap := s.heap.setElement array index value }
  | enter (target : Nat) :
    Change i full s { s with frame := .entered target, callers := s.callers.push s.frame }
  | leave {caller : Frame} {callers : Stack Frame} (h : s.callers = callers.push caller) (count : Nat) :
    Change i full s { s with
      frame := { caller with owned := s.stack.items.take count ++ caller.owned }, callers }

/-- The state that an action leaves, also where it stops. -/
def Action.final {α : Type} (a : Action α) (s : State) : State :=
  match a.run s with
  | .ok _ t | .error _ t => t

/-- An action stops since the arena has no room for another value. -/
def Action.Overflows {α : Type} (a : Action α) (s : State) : Prop :=
  ∃ t, t.heap.isFull = true ∧
    a.run s = .error (.limit (.allocation (Heap.capacity - 1) (t.heap.slots.size + 1))) t

namespace Action

variable {α β : Type}

theorem final_bind (a : Action α) (f : α → Action β) (s : State) : (a >>= f).final s =
    match a.run s with
    | .ok x t => (f x).final t
    | .error _ t => t := by
  rw [final, EStateM.run_bind]
  cases a.run s <;> rfl

theorem overflows_bind {a : Action α} {f : α → Action β} {s : State} : (a >>= f).Overflows s ↔
    match a.run s with
    | .ok x t => (f x).Overflows t
    | .error _ _ => a.Overflows s := by
  unfold Overflows
  rw [EStateM.run_bind]
  cases a.run s with
  | ok x t => rfl
  | error e t => simp

section Built

variable {p : Program} {i : Instruction} {a : Action α}

/-- What holds of changes, and of one change after another, holds of actions. -/
theorem Built.relates {full : Prop} {R : State → State → Prop} (hc : ∀ {s t}, s.Change i full t → R s t)
    (ht : ∀ {s t u}, R s t → R t u → R s u) (ha : Built p i a) (s : State) (hs : a.Overflows s → full) :
    R s (a.final s) := by
  induction ha generalizing s with
  | pure | throw => exact hc .none
  | @bind _ _ a f ha hf iha ihf =>
    have h := iha s
    rw [final_bind]
    rw [overflows_bind] at hs
    rw [final] at h
    cases hr : a.run s with
    | ok x t =>
      rw [hr] at h hs
      refine ht (h ?_) (ihf x t hs)
      rintro ⟨u, -, hu⟩
      cases hr.symm.trans hu
    | error e t =>
      rw [hr] at h hs
      exact h hs
  | push h => exact hc (.stack _)
  | pop opcode =>
    rw [final, run_pop]
    cases s.stack.pop? with
    | none => exact hc .none
    | some popped => exact hc (.stack popped.2)
  | popPair opcode =>
    rw [final, run_popPair]
    cases s.stack.popPair? with
    | none => exact hc .none
    | some popped => exact hc (.stack popped.2.2)
  | checkLength length =>
    rw [final, run_check]
    cases s.meter.checkArrayLength length <;> exact hc .none
  | allocate value =>
    have hrun := run_allocate s value
    rw [final]
    cases hm : s.meter.allocate with
    | error e =>
      rw [hm] at hrun
      rw [hrun]
      exact hc .none
    | ok meter =>
      rw [hm] at hrun
      dsimp only at hrun
      split at hrun
      · rename_i hf
        rw [hrun]
        exact hc (.full hm (hs ⟨{ s with meter }, hf, hrun⟩))
      · rw [hrun]
        exact hc (.allocate hm value)
  | valueOf h =>
    rw [final, run_valueOf]
    cases s.heap.get? h <;> exact hc .none
  | lookup name =>
    rw [final, run_lookup]
    cases s.frame.bindings.lookup name <;> exact hc .none
  | bindName name h => exact hc (.bind name h)
  | print h =>
    rw [final, run_print]
    cases s.heap.render h with
    | error h => exact hc .none
    | ok text => exact hc (.print text)
  | store hi array index value => exact hc (.store hi array index value)
  | enter label =>
    rw [final, run_enter]
    cases p.labels.get? label with
    | none => exact hc .none
    | some target =>
      dsimp only
      cases s.meter.checkDepth s.depth with
      | error e => exact hc .none
      | ok => exact hc (.enter _)
  | @leave count hcount =>
    rw [final, run_leave]
    cases Text.readCount? count with
    | none => exact hc .none
    | some number =>
      dsimp only
      cases hp : s.callers.pop? with
      | none => exact hc .none
      | some popped =>
        dsimp only
        by_cases hlt : s.stack.height < number
        · rw [if_pos hlt]
          exact hc .none
        · rw [if_neg hlt]
          exact hc (.leave (Stack.pop?_eq_some_iff.1 hp) number)

/-- An action stops for a cause that its instruction admits. -/
theorem Built.admits (ha : Built p i a) {s t : State} {cause : Fault.Cause}
    (h : a.run s = .error cause t) : i.Admits p cause := by
  induction ha generalizing s t with
  | pure | push | bindName | store => cases h
  | throw hadmits =>
    cases h
    exact hadmits
  | @bind _ _ a f ha hf iha ihf =>
    rw [EStateM.run_bind] at h
    cases hr : a.run s with
    | ok x u =>
      rw [hr] at h
      exact ihf x h
    | error e u =>
      rw [hr] at h
      cases h
      exact iha hr
  | pop opcode =>
    rw [run_pop] at h
    split at h <;> cases h
    exact ⟨nofun, nofun⟩
  | popPair opcode =>
    rw [run_popPair] at h
    split at h <;> cases h
    exact ⟨nofun, nofun⟩
  | checkLength length =>
    rw [run_check] at h
    split at h <;> cases h
    exact Instruction.admits_limit _
  | allocate value =>
    rw [run_allocate] at h
    split at h
    · split at h <;> cases h
      exact Instruction.admits_limit _
    · cases h
      exact Instruction.admits_limit _
  | valueOf x =>
    rw [run_valueOf] at h
    split at h <;> cases h
    exact ⟨nofun, nofun⟩
  | lookup name =>
    rw [run_lookup] at h
    split at h <;> cases h
    exact ⟨nofun, nofun⟩
  | print x =>
    rw [run_print] at h
    split at h <;> cases h
    exact ⟨nofun, nofun⟩
  | enter label =>
    rw [run_enter] at h
    split at h
    · split at h <;> cases h
      exact Instruction.admits_limit _
    · cases h
      exact Instruction.admits_unresolvedLabel ‹_›
  | @leave count hcount =>
    rw [run_leave] at h
    split at h
    · rename_i hnone
      cases h
      refine ⟨fun _ hvalid => ?_, nofun⟩
      have hsome := hcount hvalid
      rw [hnone] at hsome
      cases hsome
    · split at h
      · cases h
      · split at h <;> cases h
        exact ⟨nofun, nofun⟩

end Built

end Action

end CMinusMinus
