import CMinusMinus.Proofs.Machine.Relocation
import CMinusMinus.Proofs.Machine.Triple

/-!
# Heights of the operand stack

A well-formed instruction takes a fixed number of values from the stack and leaves a fixed number. Where the
stack holds what it takes, it does not stop for want of operands or for its form, and it stops for want of a
label only if it names one that the program does not have.
-/

namespace CMinusMinus

/-- How many values an instruction takes from the stack and how many it leaves there; nothing if it has a
number of arguments that its operation does not have, or returns what is no count. -/
def Instruction.effect? (i : Instruction) : Option (Nat × Nat) :=
  match i.opcode, i.args with
  | .push, [_] | .length, [_] => some (0, 1)
  | .pop, [] | .pop, [_] | .print, [] | .jz, [_] | .array, [_] => some (1, 0)
  | .pop, [_, _] => some (2, 0)
  | .neg, [] | .access, [_] => some (1, 1)
  | .binary _, [] => some (2, 1)
  | .jmp, [_] | .call, [_] => some (0, 0)
  | .ret, [count] => (Text.readCount? count).map fun count => (count, count)
  | _, _ => none

/-- A cause that a well-formed instruction may have where the stack is high enough and no label is missing. -/
def Fault.Cause.isBenign : Cause → Bool
  | underflow _ _ _ | arity _ _ | badCount _ | unresolvedLabel _ => false
  | _ => true

/-- A benign cause, or a label that the instruction names and the program does not have. -/
def Fault.Cause.Fair (p : Program) (i : Instruction) (cause : Cause) : Prop :=
  cause.isBenign = true ∨ ∃ label, cause = .unresolvedLabel label ∧ p.labels.get? label = none ∧
    (i = ⟨.jz, [label]⟩ ∨ i = ⟨.jmp, [label]⟩ ∨ i = ⟨.call, [label]⟩)

/-! ## Actions -/

namespace Action

/-- On a stack with `taken` values above any height, an action leaves `left` values above that height, or
stops with a benign cause. -/
def Lifts {α : Type} (taken left : Nat) (a : Action α) : Prop :=
  ∀ n, Triple (fun s => s.stack.height = n + taken) a (fun _ s => s.stack.height = n + left)
    fun cause _ => cause.isBenign = true

variable {α β : Type}

theorem Lifts.bind {k l m : Nat} {a : Action α} {f : α → Action β} (ha : Lifts k l a)
    (hf : ∀ x, Lifts l m (f x)) : Lifts k m (a >>= f) :=
  fun n => (ha n).bind fun x => hf x n

theorem lifts_pure (k : Nat) (x : α) : Lifts k k (pure x) := fun _ _ h => h

theorem lifts_throw {cause : Fault.Cause} (h : cause.isBenign = true) (k l : Nat) :
    Lifts k l (throw cause : Action α) := fun _ _ _ => h

/-! ### Taking and leaving -/

theorem lifts_push (h : Handle) : Lifts 0 1 (push h) := fun _ _ hs => congrArg (· + 1) hs

theorem lifts_pop (opcode : Opcode) : Lifts 1 0 (pop opcode) := by
  intro n s hs
  rw [run_pop]
  cases hp : s.stack.pop? with
  | none =>
    rw [Stack.pop?_eq_none_iff.1 hp] at hs
    cases hs
  | some popped =>
    rw [Stack.pop?_eq_some_iff.1 hp] at hs
    exact Nat.succ.inj hs

theorem lifts_popPair (opcode : Opcode) : Lifts 2 0 (popPair opcode) := by
  intro n s hs
  rw [run_popPair]
  cases hp : s.stack.popPair? with
  | none =>
    -- One of the two pops fails, on a stack of no value or of one.
    unfold Stack.popPair? at hp
    cases h₁ : s.stack.pop? with
    | none =>
      rw [Stack.pop?_eq_none_iff.1 h₁] at hs
      cases hs
    | some popped =>
      rw [h₁] at hp
      cases h₂ : popped.2.pop? with
      | none =>
        rw [Stack.pop?_eq_some_iff.1 h₁, Stack.pop?_eq_none_iff.1 h₂] at hs
        cases hs
      | some popped' =>
        simp [h₂] at hp
  | some popped =>
    rw [Stack.popPair?_eq_some_iff.1 hp] at hs
    exact Nat.succ.inj (Nat.succ.inj hs)

/-! ### Actions that leave the stack as it is -/

section Keeping

variable (k : Nat)

theorem lifts_check (f : Meter → Except LimitError Unit) : Lifts k k (check f) := by
  intro n s hs
  rw [run_check]
  cases f s.meter with
  | ok => exact hs
  | error e => rfl

theorem lifts_allocate (value : Value) : Lifts k k (allocate value) := by
  intro n s hs
  rw [run_allocate]
  cases s.meter.allocate with
  | error e => rfl
  | ok meter =>
    by_cases hf : s.heap.isFull
    · simp only [hf, if_true]
      rfl
    · simp only [hf]
      exact hs

theorem lifts_intOf (h : Handle) (operation : String) : Lifts k k (intOf h operation) := by
  intro n s hs
  rw [run_intOf]
  rcases s.heap.get? h with _ | value | elements
  · rfl
  · exact hs
  · rfl

theorem lifts_elementsOf (h : Handle) (operation : String) : Lifts k k (elementsOf h operation) := by
  intro n s hs
  rw [run_elementsOf]
  rcases s.heap.get? h with _ | value | elements
  · rfl
  · rfl
  · exact hs

theorem lifts_lookup (name : String) : Lifts k k (lookup name) := by
  intro n s hs
  rw [run_lookup]
  cases s.frame.bindings.lookup name with
  | none => rfl
  | some h => exact hs

theorem lifts_bind (name : String) (h : Handle) : Lifts k k (bind name h) := fun _ _ hs => hs

theorem lifts_print (h : Handle) : Lifts k k (print h) := by
  intro n s hs
  rw [run_print]
  cases s.heap.render h with
  | ok text => exact hs
  | error h => rfl

theorem triple_elementIndex (h : Handle) (name : String) (length n : Nat) :
    Triple (fun s => s.stack.height = n) (elementIndex h name length)
      (fun index s => s.stack.height = n ∧ index < length) fun cause _ => cause.isBenign = true := by
  intro s hs
  rw [run_elementIndex]
  rcases s.heap.get? h with _ | index | elements
  · rfl
  · by_cases hindex : 0 ≤ index ∧ index < length
    · simp only [if_pos hindex]
      exact ⟨hs, by omega⟩
    · simp only [if_neg hindex]
      rfl
  · rfl

end Keeping

/-! ### Composed actions -/

theorem lifts_pushInt (value : Int) : Lifts 0 1 (pushInt value) :=
  (lifts_allocate 0 _).bind fun h => lifts_push h

theorem lifts_pushArgument (arg : String) : Lifts 0 1 (pushArgument arg) := by
  unfold pushArgument
  cases Text.readInt? arg with
  | some value => exact lifts_pushInt value
  | none => exact (lifts_lookup 0 arg).bind fun h => lifts_push h

theorem lifts_applyOperator (opcode : Opcode) (op : BinaryOp) : Lifts 2 1 (applyOperator opcode op) := by
  refine (lifts_popPair opcode).bind fun pair => ?_
  refine (lifts_intOf 0 _ _).bind fun a => (lifts_intOf 0 _ _).bind fun b => ?_
  cases op.apply a b with
  | ok value => exact lifts_pushInt value
  | error e => exact lifts_throw rfl 0 1

theorem lifts_negate : Lifts 1 1 negate :=
  (lifts_pop .neg).bind fun h => (lifts_intOf 0 h _).bind fun _ => lifts_pushInt _

theorem lifts_makeArray (name : String) : Lifts 1 0 (makeArray name) := by
  refine (lifts_pop .array).bind fun h => (lifts_intOf 0 h _).bind fun size => ?_
  split
  · exact lifts_throw rfl 0 0
  · refine (lifts_check 0 _).bind fun _ => ?_
    split
    · exact lifts_throw rfl 0 0
    · refine (lifts_allocate 0 _).bind fun zero => ?_
      exact (lifts_allocate 0 _).bind fun h => lifts_bind 0 name h

theorem lifts_readElement (name : String) : Lifts 1 1 (readElement name) := by
  refine (lifts_pop .access).bind fun h => (lifts_lookup 0 name).bind fun array => ?_
  refine (lifts_elementsOf 0 array _).bind fun elements n => ?_
  refine (triple_elementIndex h name elements.size n).bind fun index => ?_
  rintro s ⟨hs, hinside⟩
  simp only [dif_pos hinside]
  exact congrArg (· + 1) hs

theorem lifts_writeElement (name : String) : Lifts 2 0 (writeElement name) := by
  refine (lifts_popPair .pop).bind fun pair => (lifts_lookup 0 name).bind fun array => ?_
  refine (lifts_elementsOf 0 array _).bind fun elements n => ?_
  exact (triple_elementIndex pair.2 name elements.size n).bind fun index s hs => hs.1

theorem lifts_pushLength (name : String) : Lifts 0 1 (pushLength name) := by
  refine (lifts_lookup 0 name).bind fun array => ?_
  exact (lifts_elementsOf 0 array _).bind fun _ => lifts_pushInt _

end Action

/-! ## Instructions -/

open CMinusMinus.Action

/-- An instruction finds `taken` values above a height and leaves `left` there, or stops fairly. -/
abbrev Instruction.Moves (p : Program) (i : Instruction) (taken left : Nat) : Prop :=
  ∀ n, Triple (fun s => s.stack.height = n + taken) (i.execute p) (fun _ s => s.stack.height = n + left)
    fun cause _ => cause.Fair p i

theorem Action.Lifts.moves {α : Type} {p : Program} {i : Instruction} {taken left : Nat} {a : Action α}
    {control : Control} (h : Lifts taken left a) (he : i.execute p = a >>= fun _ => pure control) :
    i.Moves p taken left := by
  -- A benign cause is fair whatever the instruction is.
  intro n s hs
  have hr := ((h n).bind fun _ => lifts_pure left control n) s hs
  rw [he]
  revert hr
  cases (a >>= fun _ => pure control : Action Control).run s with
  | ok x t => exact id
  | error cause t => exact .inl

section Jumps

variable (p : Program) (label : String)

theorem moves_test : Instruction.Moves p ⟨.jz, [label]⟩ 1 0 := by
  intro n s hs
  show Ends _ _ ((jumpIfZero p label).run s)
  rw [run_jumpIfZero]
  cases hl : p.labels.get? label with
  | none => exact .inr ⟨label, rfl, hl, .inl rfl⟩
  | some target =>
    cases hp : s.stack.pop? with
    | none =>
      rw [Stack.pop?_eq_none_iff.1 hp] at hs
      cases hs
    | some popped =>
      rw [Stack.pop?_eq_some_iff.1 hp] at hs
      rcases hv : s.heap.get? popped.1 with _ | value | elements
      · simp only [hv]
        exact .inl rfl
      · simp only [hv]
        exact Nat.succ.inj hs
      · simp only [hv]
        exact .inl rfl

theorem moves_jump : Instruction.Moves p ⟨.jmp, [label]⟩ 0 0 := by
  intro n s hs
  show Ends _ _ ((resolve p label >>= fun target => pure (Control.jump target)).run s)
  rw [EStateM.run_bind, run_resolve]
  cases hl : p.labels.get? label with
  | none => exact .inr ⟨label, rfl, hl, .inr (.inl rfl)⟩
  | some target => exact hs

theorem moves_call : Instruction.Moves p ⟨.call, [label]⟩ 0 0 := by
  intro n s hs
  show Ends _ _ ((enter p label).run s)
  rw [run_enter]
  cases hl : p.labels.get? label with
  | none => exact .inr ⟨label, rfl, hl, .inr (.inr rfl)⟩
  | some target =>
    cases hd : s.meter.checkDepth s.depth with
    | ok => exact hs
    | error e => exact .inl rfl

theorem moves_ret {text : String} {count : Nat} (h : Text.readCount? text = some count) :
    Instruction.Moves p ⟨.ret, [text]⟩ count count := by
  intro n s hs
  show Ends _ _ ((leave text).run s)
  rw [run_leave, h]
  cases hp : s.callers.pop? with
  -- The outermost call halts before its stack is checked.
  | none => exact hs
  | some popped =>
    have hnot : ¬ s.stack.height < count := by omega
    simp only [if_neg hnot]
    exact hs

end Jumps

/-- Where the stack holds what an instruction takes, it has the instruction's effect. -/
theorem Instruction.moves {p : Program} {i : Instruction} {taken left : Nat}
    (h : i.effect? = some (taken, left)) : i.Moves p taken left := by
  obtain ⟨opcode, args⟩ := i
  unfold effect? at h
  -- The cases are the rows of the table; only the count of a return is read from its argument.
  split at h
  case h_14 =>
    rename_i count ho ha
    dsimp only at ho ha
    subst ho ha
    obtain ⟨n, hn, he⟩ := Option.map_eq_some_iff.1 h
    cases he
    exact moves_ret p hn
  case h_15 => cases h
  all_goals
    rename_i ho ha
    dsimp only at ho ha
    subst ho ha
    cases h
  · exact (lifts_pushArgument _).moves rfl
  · exact (lifts_pushLength _).moves rfl
  · exact ((lifts_pop _).bind fun _ => lifts_pure 0 ()).moves rfl
  · exact ((lifts_pop _).bind fun h => lifts_bind 0 _ h).moves (bind_assoc ..).symm
  · exact ((lifts_pop _).bind fun h => lifts_print 0 h).moves (bind_assoc ..).symm
  · exact moves_test p _
  · exact (lifts_makeArray _).moves rfl
  · exact (lifts_writeElement _).moves rfl
  · exact lifts_negate.moves rfl
  · exact (lifts_readElement _).moves rfl
  · exact (lifts_applyOperator _ _).moves rfl
  · exact moves_jump p _
  · exact moves_call p _

end CMinusMinus
