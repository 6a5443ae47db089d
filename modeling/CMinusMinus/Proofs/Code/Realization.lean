import CMinusMinus.Proofs.Code.Layout
import CMinusMinus.Proofs.Ideal.Straight

/-!
# Evaluations that code realizes

Started where its code stands, the machine does what an evaluation does: it comes to the code that follows,
stops for the same cause, or takes at least as many turns as there was fuel. Every instruction realizes one
step of an evaluation.
-/

namespace CMinusMinus

open CMinusMinus.Ideal (execute turn runFrom advance)

/-! ## States -/

/-- What a call has below and behind it: where it returns to, and the calls that it returns to. -/
structure Context where
  returnAddress : Nat
  callers : List Ideal.Frame

/-- The state of the machine in a scene. -/
def Scene.state (s : Scene) (c : Context) (stack : List Datum) (k : Nat) : Ideal.State :=
  ⟨none, s.memory, stack, ⟨s.locals, c.returnAddress⟩, c.callers, k, s.output⟩

/-- The machine is in a scene and stands before some lines. -/
def At (p : Program) (c : Context) (stack : List Datum) (lines : List Program.Line) (s : Scene)
    (t : Ideal.State) : Prop :=
  ∃ k, t = s.state c stack k ∧ p.Located k lines

/-! ## Realization -/

/-- What becomes of a run from `t` for each result of an evaluation. -/
def Runs {α : Type} (p : Program) (fuel : Nat) (t : Ideal.State) (Q : α → Scene → Ideal.State → Prop) :
    EStateM.Result Stop Scene α → Prop
  | .ok x s => ∃ n t', runFrom p n t = (t', none) ∧ Q x s t'
  | .error (.failed cause) s => ∃ n t' position,
    runFrom p n t = (t', some (.failed ⟨cause, some position⟩)) ∧ t'.output = s.output
  | .error .exhausted s => ∃ n ≥ fuel, ∃ t', runFrom p n t = (t', none) ∧ t'.output = s.output

/-- From `t` on, the machine does what an evaluation in the scene `s` does. -/
def Realizes {α : Type} (p : Program) (fuel : Nat) (t : Ideal.State) (s : Scene) (a : Eval α)
    (Q : α → Scene → Ideal.State → Prop) : Prop :=
  Runs p fuel t Q (a.run s)

section Logic

variable {α β : Type} {p : Program} {fuel : Nat} {t t' : Ideal.State} {s : Scene}
  {Q : α → Scene → Ideal.State → Prop} {R : β → Scene → Ideal.State → Prop}

theorem realizes_pure {x : α} (h : Q x s t) : Realizes p fuel t s (pure x) Q :=
  ⟨0, t, rfl, h⟩

theorem realizes_exhausted (hs : t.output = s.output) :
    Realizes p 0 t s (throw .exhausted) Q :=
  ⟨0, Nat.le_refl 0, t, rfl, hs⟩

/-- Turns that were taken before. -/
theorem Runs.after {n fuel' : Nat} (ht : runFrom p n t = (t', none)) {r : EStateM.Result Stop Scene α}
    (h : Runs p fuel t' Q r) (hf : fuel' ≤ n + fuel) : Runs p fuel' t Q r := by
  rcases r with ⟨x, s'⟩ | ⟨_ | cause, s'⟩
  · obtain ⟨m, t'', hm, hq⟩ := h
    exact ⟨n + m, t'', (Ideal.runFrom_add ht m).trans hm, hq⟩
  · obtain ⟨m, hge, t'', hm, ho⟩ := h
    exact ⟨n + m, by omega, t'', (Ideal.runFrom_add ht m).trans hm, ho⟩
  · obtain ⟨m, t'', position, hm, ho⟩ := h
    exact ⟨n + m, t'', position, (Ideal.runFrom_add ht m).trans hm, ho⟩

theorem Realizes.mono {fuel' : Nat} {a : Eval α} (h : Realizes p fuel t s a Q) (hf : fuel' ≤ fuel) :
    Realizes p fuel' t s a Q :=
  Runs.after (n := 0) rfl h (by omega)

/-- Turns that are taken after an evaluation. -/
theorem Realizes.further {Q' : α → Scene → Ideal.State → Prop} {a : Eval α}
    (h : Realizes p fuel t s a Q)
    (hq : ∀ x s' t', a.run s = .ok x s' → Q x s' t' →
      ∃ n t'', runFrom p n t' = (t'', none) ∧ Q' x s' t'') :
    Realizes p fuel t s a Q' := by
  unfold Realizes at h ⊢
  cases hr : a.run s with
  | ok x s' =>
    rw [hr] at h
    obtain ⟨n, t', hn, h⟩ := h
    obtain ⟨m, t'', hm, h⟩ := hq x s' t' hr h
    exact ⟨n + m, t'', (Ideal.runFrom_add hn m).trans hm, h⟩
  | error stop s' =>
    rw [hr] at h
    cases stop with
    | exhausted => exact h
    | failed cause => exact h

theorem Realizes.imp {Q' : α → Scene → Ideal.State → Prop} {a : Eval α} (h : Realizes p fuel t s a Q)
    (hq : ∀ x s' t', a.run s = .ok x s' → Q x s' t' → Q' x s' t') : Realizes p fuel t s a Q' :=
  h.further fun x s' t' hr h => ⟨0, t', rfl, hq x s' t' hr h⟩

/-- A turn that does nothing for the evaluation. -/
theorem Realizes.turn {fuel' : Nat} {a : Eval α} (ht : turn p t = (t', none))
    (h : Realizes p fuel t' s a Q) (hf : fuel' ≤ fuel + 1) : Realizes p fuel' t s a Q :=
  Runs.after ((Ideal.runFrom_one p t).trans ht) h (by omega)

theorem Realizes.bind {a : Eval α} {f : α → Eval β} (ha : Realizes p fuel t s a Q)
    (hf : ∀ x s' t', Q x s' t' → Realizes p fuel t' s' (f x) R) :
    Realizes p fuel t s (a >>= f) R := by
  unfold Realizes at ha ⊢
  rw [EStateM.run_bind]
  cases hr : a.run s with
  | ok x s' =>
    rw [hr] at ha
    obtain ⟨n, t', hn, hq⟩ := ha
    exact Runs.after hn (hf x s' t' hq) (Nat.le_add_left fuel n)
  | error stop s' =>
    rw [hr] at ha
    cases stop with
    | exhausted => exact ha
    | failed cause => exact ha

/-- What an instruction does for each result of a step of an evaluation. -/
def Answers (Q : α → Scene → Ideal.State → Prop) :
    EStateM.Result Fault.Cause Ideal.State Control → EStateM.Result Stop Scene α → Prop
  | .ok control t', .ok x s' => control.ending? = none ∧ Q x s' (advance control t')
  | .error cause t', .error stop s' => stop = .failed cause ∧ t'.output = s'.output
  | _, _ => False

theorem realizes_instruction {i : Instruction} {a : Eval α} (hi : p.instructions[t.position]? = some i)
    (h : Answers Q ((execute i p).run t) (a.run s)) : Realizes p fuel t s a Q := by
  unfold Realizes
  cases hr : (execute i p).run t with
  | ok control t' =>
    rw [hr] at h
    cases ha : a.run s with
    | ok x s' =>
      rw [ha] at h
      obtain ⟨hn, hq⟩ := h
      have ht := Ideal.turn_ok hi hr
      rw [hn, ← Ideal.runFrom_one] at ht
      exact ⟨1, _, ht, hq⟩
    | error stop s' =>
      rw [ha] at h
      exact h.elim
  | error cause t' =>
    rw [hr] at h
    cases ha : a.run s with
    | ok x s' =>
      rw [ha] at h
      exact h.elim
    | error stop s' =>
      rw [ha] at h
      obtain ⟨rfl, ho⟩ := h
      have ht := Ideal.turn_error hi hr
      rw [← Ideal.runFrom_one] at ht
      exact ⟨1, _, _, ht, ho⟩

end Logic

/-! ## Steps of evaluations -/

namespace Eval

variable (s : Scene)

theorem run_intOf (value : Datum) (operation : String) : (intOf value operation).run s =
    match value with
    | .int value => .ok value s
    | .array _ => .error (.failed (.notInteger operation)) s := by
  cases value <;> rfl

theorem run_read (name : String) : (read name).run s =
    match s.locals.lookup name with
    | some value => .ok value s
    | none => .error (.failed (.unboundName name)) s := by
  simp only [read, EStateM.run_bind, EStateM.run_get]
  cases s.locals.lookup name <;> rfl

theorem run_arrayIn (name operation : String) : (arrayIn name operation).run s =
    match s.locals.lookup name with
    | some (.array address) => .ok (address, s.memory.elements address) s
    | some (.int _) => .error (.failed (.notArray operation)) s
    | none => .error (.failed (.unboundName name)) s := by
  simp only [arrayIn, EStateM.run_bind, run_read]
  rcases s.locals.lookup name with _ | _ | _ <;> rfl

theorem run_place (index : Datum) (name : String) (length : Nat) : (place index name length).run s =
    match index with
    | .int index =>
      if 0 ≤ index ∧ index < length then .ok index.toNat s
      else .error (.failed (.badIndex index name length)) s
    | .array _ => .error (.failed (.notInteger "index")) s := by
  simp only [place, EStateM.run_bind, run_intOf]
  cases index with
  | int index =>
    show EStateM.run (if _ then _ else _) s = if _ then _ else _
    split <;> rfl
  | array address => rfl

end Eval

/-! ## Instructions -/

section Instructions

variable {p : Program} {fuel : Nat} {s : Scene} {c : Context} {stack : List Datum} {k : Nat}
  {rest : List Program.Line}

theorem realizes_literal {value : Int}
    (h : p.Located k (.instruction (.push (Text.numeral value)) :: rest)) :
    Realizes p fuel (s.state c stack k) s (pure (.int value)) fun v => At p c (v :: stack) rest := by
  refine realizes_instruction h.1 ?_
  simp only [execute, Instruction.push, Ideal.pushArgument, Text.readInt?_numeral]
  exact ⟨rfl, k + 1, rfl, h.2⟩

theorem realizes_variable {name : String} (hn : Text.readInt? name = none)
    (h : p.Located k (.instruction (.push name) :: rest)) :
    Realizes p fuel (s.state c stack k) s (Eval.read name) fun v => At p c (v :: stack) rest := by
  refine realizes_instruction h.1 ?_
  simp only [execute, Instruction.push, Ideal.pushArgument, hn, EStateM.run_bind, Ideal.run_lookup,
    Scene.state, Eval.run_read]
  cases s.locals.lookup name with
  | none => exact ⟨rfl, rfl⟩
  | some v => exact ⟨rfl, k + 1, rfl, h.2⟩

theorem realizes_print {v : Datum} (h : p.Located k (.instruction ⟨.print, []⟩ :: rest)) :
    Realizes p fuel (s.state c (v :: stack) k) s (Eval.print v) fun _ => At p c stack rest :=
  realizes_instruction h.1 ⟨rfl, k + 1, rfl, h.2⟩

theorem realizes_bind {name : String} {v : Datum} (h : p.Located k (.instruction (.bind name) :: rest)) :
    Realizes p fuel (s.state c (v :: stack) k) s (Eval.bind name v) fun _ => At p c stack rest :=
  realizes_instruction h.1 ⟨rfl, k + 1, rfl, h.2⟩

theorem realizes_negate {v : Datum} (h : p.Located k (.instruction ⟨.neg, []⟩ :: rest)) :
    Realizes p fuel (s.state c (v :: stack) k) s (Eval.negate v) fun v => At p c (v :: stack) rest := by
  refine realizes_instruction h.1 ?_
  cases v with
  | int value => exact ⟨rfl, k + 1, rfl, h.2⟩
  | array address => exact ⟨rfl, rfl⟩

theorem realizes_operate {op : BinaryOp} {a b : Datum}
    (h : p.Located k (.instruction ⟨.binary op, []⟩ :: rest)) :
    Realizes p fuel (s.state c (b :: a :: stack) k) s (Eval.operate op a b)
      fun v => At p c (v :: stack) rest := by
  refine realizes_instruction h.1 ?_
  simp only [execute, Ideal.applyOperator, Eval.operate, EStateM.run_bind, Ideal.run_popPair,
    Scene.state, Ideal.run_intOf, Eval.run_intOf]
  cases a with
  | array address => exact ⟨rfl, rfl⟩
  | int a =>
    cases b with
    | array address => exact ⟨rfl, rfl⟩
    | int b =>
      dsimp only
      cases op.apply a b with
      | ok value => exact ⟨rfl, k + 1, rfl, h.2⟩
      | error e => exact ⟨rfl, rfl⟩

theorem realizes_length {name : String} (h : p.Located k (.instruction ⟨.length, [name]⟩ :: rest)) :
    Realizes p fuel (s.state c stack k) s (Eval.length name) fun v => At p c (v :: stack) rest := by
  refine realizes_instruction h.1 ?_
  simp only [execute, Ideal.pushLength, Eval.length, EStateM.run_bind, Ideal.run_lookup, Scene.state,
    Eval.run_arrayIn]
  rcases s.locals.lookup name with _ | _ | _
  · exact ⟨rfl, rfl⟩
  · exact ⟨rfl, rfl⟩
  · exact ⟨rfl, k + 1, rfl, h.2⟩

theorem realizes_element {name : String} {index : Datum}
    (h : p.Located k (.instruction ⟨.access, [name]⟩ :: rest)) :
    Realizes p fuel (s.state c (index :: stack) k) s (Eval.element name index)
      fun v => At p c (v :: stack) rest := by
  refine realizes_instruction h.1 ?_
  simp only [execute, Ideal.readElement, Eval.element, EStateM.run_bind, Ideal.run_pop, Ideal.run_lookup,
    Scene.state, Eval.run_arrayIn]
  rcases s.locals.lookup name with _ | _ | address
  · exact ⟨rfl, rfl⟩
  · exact ⟨rfl, rfl⟩
  · simp only [Ideal.run_addressOf, Ideal.elementsAt, EStateM.run_bind, EStateM.run_get, EStateM.run_pure,
      Ideal.run_elementIndex, Eval.run_place]
    cases index with
    | array address' => exact ⟨rfl, rfl⟩
    | int index =>
      by_cases hindex : 0 ≤ index ∧ index < (s.memory.elements address).length
      · have hlt : index.toNat < (s.memory.elements address).length := by omega
        simp only [if_pos hindex, dif_pos hlt]
        rw [List.getD_eq_getElem?_getD, List.getElem?_eq_getElem hlt, Option.getD_some]
        exact ⟨rfl, k + 1, rfl, h.2⟩
      · simp only [if_neg hindex]
        exact ⟨rfl, rfl⟩

theorem realizes_store {name : String} {value index : Datum}
    (h : p.Located k (.instruction (.store name) :: rest)) :
    Realizes p fuel (s.state c (index :: value :: stack) k) s (Eval.store name value index)
      fun _ => At p c stack rest := by
  refine realizes_instruction h.1 ?_
  simp only [execute, Instruction.store, Ideal.writeElement, Eval.store, EStateM.run_bind,
    Ideal.run_popPair, Ideal.run_lookup, Scene.state, Eval.run_arrayIn]
  rcases s.locals.lookup name with _ | _ | address
  · exact ⟨rfl, rfl⟩
  · exact ⟨rfl, rfl⟩
  · simp only [Ideal.run_addressOf, Ideal.elementsAt, EStateM.run_bind, EStateM.run_get, EStateM.run_pure,
      Ideal.run_elementIndex, Eval.run_place]
    cases index with
    | array address' => exact ⟨rfl, rfl⟩
    | int index =>
      by_cases hindex : 0 ≤ index ∧ index < (s.memory.elements address).length
      · simp only [if_pos hindex]
        exact ⟨rfl, k + 1, rfl, h.2⟩
      · simp only [if_neg hindex]
        exact ⟨rfl, rfl⟩

theorem realizes_makeArray {name : String} {size : Datum}
    (h : p.Located k (.instruction ⟨.array, [name]⟩ :: rest)) :
    Realizes p fuel (s.state c (size :: stack) k) s (Eval.makeArray name size)
      fun _ => At p c stack rest := by
  refine realizes_instruction h.1 ?_
  simp only [execute, Ideal.makeArray, Eval.makeArray, EStateM.run_bind, Ideal.run_pop, Scene.state,
    Ideal.run_intOf, Eval.run_intOf]
  cases size with
  | array address => exact ⟨rfl, rfl⟩
  | int size =>
    by_cases hsize : size < 0 ∨ size ≥ Text.countBound
    · simp only [if_pos hsize]
      exact ⟨rfl, rfl⟩
    · simp only [if_neg hsize]
      exact ⟨rfl, k + 1, rfl, h.2⟩

/-! ### Control -/

/-- Where a test goes on: behind its jump if it succeeds, and at the target otherwise. -/
def Tested (p : Program) (c : Context) (stack : List Datum) (rest : List Program.Line) (target : Nat) :
    Bool → Scene → Ideal.State → Prop
  | true => At p c stack rest
  | false => fun s t => t = s.state c stack target

theorem realizes_test {v : Datum} {label : String} {target : Nat}
    (hl : p.labels.get? label = some target) (h : p.Located k (.instruction ⟨.jz, [label]⟩ :: rest)) :
    Realizes p fuel (s.state c (v :: stack) k) s (Eval.test v) (Tested p c stack rest target) := by
  refine realizes_instruction h.1 ?_
  simp only [execute, Ideal.run_jumpIfZero, hl, Scene.state, Eval.test, EStateM.run_bind, Eval.run_intOf]
  cases v with
  | array address => exact ⟨rfl, rfl⟩
  | int value =>
    by_cases hz : value = 0
    · subst hz
      exact ⟨rfl, rfl⟩
    · have htrue : decide (value ≠ 0) = true := decide_eq_true hz
      simp only [if_neg hz, htrue]
      exact ⟨rfl, k + 1, rfl, h.2⟩

theorem turn_jump {label : String} {target : Nat} (hl : p.labels.get? label = some target)
    (h : p.Located k (.instruction ⟨.jmp, [label]⟩ :: rest)) :
    turn p (s.state c stack k) = (s.state c stack target, none) := by
  have he : (execute ⟨.jmp, [label]⟩ p).run (s.state c stack k) =
      .ok (.jump target) (s.state c stack k) := by
    simp only [execute, EStateM.run_bind, Ideal.run_resolve, hl]
    rfl
  exact Ideal.turn_ok h.1 he

/-- The context of the calls that a call makes. -/
def Context.inner (c : Context) (s : Scene) (returnAddress : Nat) : Context :=
  ⟨returnAddress, ⟨s.locals, c.returnAddress⟩ :: c.callers⟩

theorem turn_call {name : String} {target : Nat} (hl : p.labels.get? name = some target)
    (h : p.Located k (.instruction ⟨.call, [name]⟩ :: rest)) :
    turn p (s.state c stack k) =
      (({ s with locals := [] } : Scene).state (c.inner s (k + 1)) stack target, none) := by
  have he : (execute ⟨.call, [name]⟩ p).run (s.state c stack k) =
      .ok (.enter name target) (({ s with locals := [] } : Scene).state (c.inner s (k + 1)) stack k) := by
    simp only [execute, Ideal.run_enter, hl]
    rfl
  exact Ideal.turn_ok h.1 he

theorem turn_ret {outer : Scene} {count : Nat} (hcount : Text.readCount? count.repr = some count)
    (hheight : count ≤ stack.length) {k' : Nat}
    (hi : p.instructions[k]? = some (.ret count)) :
    turn p (s.state (c.inner outer k') stack k) =
      (({ s with locals := outer.locals } : Scene).state c stack k', none) := by
  have he : (execute (.ret count) p).run (s.state (c.inner outer k') stack k) =
      .ok (.leave k') (({ s with locals := outer.locals } : Scene).state c stack k) := by
    simp only [execute, Instruction.ret, Ideal.run_leave, hcount]
    show (if stack.length < count then _ else _) = _
    rw [if_neg (Nat.not_lt_of_le hheight)]
    rfl
  exact Ideal.turn_ok hi he

end Instructions

end CMinusMinus
