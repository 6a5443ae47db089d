import CMinusMinus.Proofs.Machine.Action

/-!
# Actions and places

Most actions neither see nor change where control is: the position, the return addresses and the frames
of the callers. Every instruction but a jump, a call and a return is such an action, followed by the next
instruction.
-/

namespace CMinusMinus

/-- A result with its value and its state replaced. -/
def mapResult {ε σ τ α β : Type} (f : α → β) (g : σ → τ) :
    EStateM.Result ε σ α → EStateM.Result ε τ β
  | .ok x s => .ok (f x) (g s)
  | .error e s => .error e (g s)

/-- The state with another position, return address and callers. -/
def State.placed (position returnAddress : Nat) (callers : Stack Frame) (s : State) : State :=
  { s with position, frame := { s.frame with returnAddress }, callers }

/-- An action neither sees nor changes where control is. -/
def Action.Local {α : Type} (a : Action α) : Prop :=
  ∀ position returnAddress callers s,
    a.run (s.placed position returnAddress callers) =
      mapResult id (State.placed position returnAddress callers) (a.run s)

namespace Action

/-! ## Actions -/

variable {α β : Type}

theorem Local.bind {a : Action α} {f : α → Action β} (ha : Local a) (hf : ∀ x, Local (f x)) :
    Local (a >>= f) := by
  intro position returnAddress callers s
  rw [EStateM.run_bind, EStateM.run_bind, ha]
  cases a.run s with
  | ok x t => exact hf x position returnAddress callers t
  | error e t => rfl

theorem local_pure (x : α) : Local (pure x) := fun _ _ _ _ => rfl

theorem local_throw (cause : Fault.Cause) : Local (throw cause : Action α) := fun _ _ _ _ => rfl

theorem local_push (h : Handle) : Local (push h) := fun _ _ _ _ => rfl

theorem local_bind (name : String) (h : Handle) : Local (bind name h) := fun _ _ _ _ => rfl

theorem local_pop (opcode : Opcode) : Local (pop opcode) := by
  intro position returnAddress callers s
  simp only [run_pop, State.placed]
  cases s.stack.pop? <;> rfl

theorem local_popPair (opcode : Opcode) : Local (popPair opcode) := by
  intro position returnAddress callers s
  simp only [run_popPair, State.placed]
  cases s.stack.popPair? <;> rfl

theorem local_check (f : Meter → Except LimitError Unit) : Local (check f) := by
  intro position returnAddress callers s
  simp only [run_check, State.placed]
  cases f s.meter <;> rfl

theorem local_allocate (value : Value) : Local (allocate value) := by
  intro position returnAddress callers s
  simp only [run_allocate, State.placed]
  cases s.meter.allocate with
  | error e => rfl
  | ok meter => by_cases hf : s.heap.isFull <;> simp only [hf] <;> rfl

theorem local_intOf (h : Handle) (operation : String) : Local (intOf h operation) := by
  intro position returnAddress callers s
  simp only [run_intOf, State.placed]
  rcases s.heap.get? h with _ | value | elements <;> rfl

theorem local_elementsOf (h : Handle) (operation : String) : Local (elementsOf h operation) := by
  intro position returnAddress callers s
  simp only [run_elementsOf, State.placed]
  rcases s.heap.get? h with _ | value | elements <;> rfl

theorem local_lookup (name : String) : Local (lookup name) := by
  intro position returnAddress callers s
  simp only [run_lookup, State.placed]
  cases s.frame.bindings.lookup name <;> rfl

theorem local_print (h : Handle) : Local (print h) := by
  intro position returnAddress callers s
  simp only [run_print, State.placed]
  cases s.heap.render h <;> rfl

theorem local_elementIndex (h : Handle) (name : String) (length : Nat) :
    Local (elementIndex h name length) := by
  refine (local_intOf h _).bind fun index => ?_
  split
  · exact local_pure _
  · exact local_throw _

theorem local_pushInt (value : Int) : Local (pushInt value) :=
  (local_allocate _).bind fun h => local_push h

theorem local_pushArgument (arg : String) : Local (pushArgument arg) := by
  unfold pushArgument
  cases Text.readInt? arg with
  | some value => exact local_pushInt value
  | none => exact (local_lookup arg).bind fun h => local_push h

theorem local_applyOperator (opcode : Opcode) (op : BinaryOp) : Local (applyOperator opcode op) := by
  refine (local_popPair opcode).bind fun pair => ?_
  refine (local_intOf _ _).bind fun a => (local_intOf _ _).bind fun b => ?_
  cases op.apply a b with
  | ok value => exact local_pushInt value
  | error e => exact local_throw _

theorem local_negate : Local negate :=
  (local_pop .neg).bind fun h => (local_intOf h _).bind fun _ => local_pushInt _

theorem local_makeArray (name : String) : Local (makeArray name) := by
  refine (local_pop .array).bind fun h => (local_intOf h _).bind fun size => ?_
  split
  · exact local_throw _
  · refine (local_check _).bind fun _ => ?_
    split
    · exact local_throw _
    · exact (local_allocate _).bind fun zero => (local_allocate _).bind fun h => local_bind name h

theorem local_readElement (name : String) : Local (readElement name) := by
  refine (local_pop .access).bind fun h => (local_lookup name).bind fun array => ?_
  refine (local_elementsOf array _).bind fun elements => ?_
  refine (local_elementIndex h name _).bind fun index => ?_
  split
  · exact local_push _
  · exact local_pure _

theorem local_writeElement (name : String) : Local (writeElement name) := by
  refine (local_popPair .pop).bind fun pair => (local_lookup name).bind fun array => ?_
  refine (local_elementsOf array _).bind fun elements => ?_
  exact (local_elementIndex _ name _).bind fun index => fun _ _ _ _ => rfl

theorem local_pushLength (name : String) : Local (pushLength name) :=
  (local_lookup name).bind fun array => (local_elementsOf array _).bind fun _ => local_pushInt _

theorem local_resolve (p : Program) (label : String) : Local (resolve p label) := by
  unfold resolve
  cases p.labels.get? label with
  | some position => exact local_pure position
  | none => exact local_throw _

theorem local_jumpIfZero (p : Program) (label : String) : Local (jumpIfZero p label) :=
  (local_resolve p label).bind fun _ => (local_pop .jz).bind fun h => (local_intOf h _).bind fun _ =>
    local_pure _

end Action

/-! ## Instructions -/

/-- Whether control goes to the next instruction and nowhere else. -/
def Opcode.isStraight : Opcode → Bool
  | jz | jmp | call | ret => false
  | _ => true

theorem Opcode.ne_of_isStraight {opcode other : Opcode} (h : opcode.isStraight = true)
    (ho : other.isStraight = false) : opcode ≠ other := by
  rintro rfl
  rw [h] at ho
  cases ho

open CMinusMinus.Action

/-- What an instruction is to control. -/
inductive Instruction.Shape (i : Instruction) : Prop where
  | straight (a : Action Unit) (ha : Local a) (he : ∀ p, i.execute p = a >>= fun _ => pure .next)
      (ho : i.opcode.isStraight = true)
  | test (label : String) (hi : i = ⟨.jz, [label]⟩)
  | jump (label : String) (hi : i = ⟨.jmp, [label]⟩)
  | call (label : String) (hi : i = ⟨.call, [label]⟩)
  | ret (count : String) (hi : i = ⟨.ret, [count]⟩)
  | malformed (he : ∀ p, i.execute p = throw (.arity i.opcode i.args.length))

theorem Instruction.shape (i : Instruction) : i.Shape := by
  obtain ⟨opcode, args⟩ := i
  by_cases hm : ∀ p, execute ⟨opcode, args⟩ p = throw (.arity opcode args.length)
  · exact .malformed hm
  unfold execute at hm
  split at hm
  case h_15 => exact absurd (fun _ => rfl) hm
  all_goals
    rename_i ho ha
    dsimp only at ho ha
    subst ho ha
  · exact .straight _ (local_pushArgument _) (fun _ => rfl) rfl
  · exact .straight _ ((local_pop _).bind fun _ => local_pure _) (fun _ => rfl) rfl
  · exact .straight _ ((local_pop _).bind fun h => local_bind _ h) (fun _ => (bind_assoc ..).symm) rfl
  · exact .straight _ (local_writeElement _) (fun _ => rfl) rfl
  · exact .straight _ ((local_pop _).bind fun h => local_print h) (fun _ => (bind_assoc ..).symm) rfl
  · exact .straight _ local_negate (fun _ => rfl) rfl
  · exact .straight _ (local_applyOperator _ _) (fun _ => rfl) rfl
  · exact .test _ rfl
  · exact .jump _ rfl
  · exact .call _ rfl
  · exact .ret _ rfl
  · exact .straight _ (local_makeArray _) (fun _ => rfl) rfl
  · exact .straight _ (local_readElement _) (fun _ => rfl) rfl
  · exact .straight _ (local_pushLength _) (fun _ => rfl) rfl

end CMinusMinus
