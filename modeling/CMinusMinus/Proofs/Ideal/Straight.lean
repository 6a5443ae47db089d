import CMinusMinus.Proofs.Ideal.Relocation
import CMinusMinus.Proofs.Optimizer.Grouping

/-!
# Runs of constant code

Runs of the machine without a heap put together, and what code that computes a constant does: each of its
instructions allocates one integer, and only the constant is left.
-/

namespace CMinusMinus.Ideal

variable {p : Program} {t : State}

/-! ## Runs put together -/

theorem turn_ok {i : Instruction} (hi : p.instructions[t.position]? = some i) {control : Control}
    {t' : State} (he : (execute i p).run t = .ok control t') :
    turn p t = (advance control t', control.ending?) := by
  rw [turn, hi]
  dsimp only
  rw [he]

theorem turn_error {i : Instruction} (hi : p.instructions[t.position]? = some i) {cause : Fault.Cause}
    {t' : State} (he : (execute i p).run t = .error cause t') :
    turn p t = (t', some (.failed ⟨cause, some t.position⟩)) := by
  rw [turn, hi]
  dsimp only
  rw [he]

theorem runFrom_turn {t' : State} (ht : turn p t = (t', none)) (n : Nat) :
    runFrom p (n + 1) t = runFrom p n t' := by
  rw [runFrom, ht]

theorem runFrom_turn_ended {ending : Ending} (ht : (turn p t).2 = some ending) (n : Nat) :
    runFrom p (n + 1) t = turn p t := by
  rw [runFrom]
  rcases hturn : turn p t with ⟨t', _ | ending'⟩
  · rw [hturn] at ht
    cases ht
  · rfl

theorem runFrom_one (p : Program) (t : State) : runFrom p 1 t = turn p t := by
  rw [runFrom]
  rcases turn p t with ⟨t', _ | ending⟩ <;> rfl

theorem runFrom_add {m : Nat} {t' : State} (hm : runFrom p m t = (t', none)) (n : Nat) :
    runFrom p (m + n) t = runFrom p n t' := by
  induction m generalizing t with
  | zero =>
    cases hm
    rw [Nat.zero_add]
  | succ m ih =>
    rw [Nat.add_right_comm]
    rcases ht : turn p t with ⟨u, _ | ending⟩
    · rw [runFrom_turn ht] at hm ⊢
      exact ih hm
    · rw [runFrom_turn_ended (congrArg Prod.snd ht), ht] at hm
      cases hm

/-- A run that has ended stays as it is. -/
theorem runFrom_ended {m : Nat} {ending : Ending} (hm : (runFrom p m t).2 = some ending) {n : Nat}
    (hmn : m ≤ n) : runFrom p n t = runFrom p m t := by
  induction m generalizing t n with
  | zero => cases hm
  | succ m ih =>
    obtain ⟨n, rfl⟩ : ∃ l, n = l + 1 := ⟨n - 1, by omega⟩
    rcases ht : turn p t with ⟨u, _ | ending'⟩
    · rw [runFrom_turn ht] at hm
      rw [runFrom_turn ht, runFrom_turn ht]
      exact ih hm (Nat.le_of_succ_le_succ hmn)
    · rw [runFrom_turn_ended (congrArg Prod.snd ht), runFrom_turn_ended (congrArg Prod.snd ht)]

/-- The run from a state never exceeds the limit of allocations. -/
def Affords (p : Program) (t : State) : Prop :=
  ∀ n fault, (runFrom p n t).2 = some (.failed fault) → ¬ fault.cause.IsAllocation

theorem Affords.later (h : Affords p t) {m : Nat} {t' : State} (hm : runFrom p m t = (t', none)) :
    Affords p t' := by
  intro n fault hf
  refine h (m + n) fault ?_
  rw [runFrom_add hm, hf]

theorem Affords.not_allocation (h : Affords p t) {i : Instruction}
    (hi : p.instructions[t.position]? = some i) {cause : Fault.Cause} {t' : State}
    (he : (execute i p).run t = .error cause t') : ¬ cause.IsAllocation := by
  refine h 1 ⟨cause, some t.position⟩ ?_
  rw [runFrom_one, turn_error hi he]

/-! ## Code at a position -/

/-- A program has code from a position on. -/
def CodeAt (p : Program) (k : Nat) (code : List Instruction) : Prop :=
  ∀ j i, code[j]? = some i → p.instructions[k + j]? = some i

theorem CodeAt.left {k : Nat} {c d : List Instruction} (h : CodeAt p k (c ++ d)) : CodeAt p k c := by
  intro j i hi
  refine h j i ?_
  rw [List.getElem?_append_left (List.getElem?_eq_some_iff.1 hi).1, hi]

theorem CodeAt.right {k : Nat} {c d : List Instruction} (h : CodeAt p k (c ++ d)) :
    CodeAt p (k + c.length) d := by
  intro j i hi
  rw [Nat.add_assoc]
  refine h (c.length + j) i ?_
  rw [List.getElem?_append_right (Nat.le_add_right _ _), Nat.add_sub_cancel_left, hi]

theorem CodeAt.head {k : Nat} {i : Instruction} {code : List Instruction} (h : CodeAt p k (i :: code)) :
    p.instructions[k]? = some i :=
  h 0 i rfl

theorem codeAt_segment {start stop : Nat} : CodeAt p start (p.segment start stop) := by
  intro j i hi
  unfold Program.segment at hi
  rw [List.getElem?_take] at hi
  split at hi
  · rw [List.getElem?_drop] at hi
    simpa using hi
  · cases hi

theorem CodeAt.prefix_drop {k : Nat} {code : List Instruction} (h : CodeAt p k code) :
    code <+: p.instructions.toList.drop k := by
  refine List.prefix_iff_getElem?.2 fun j hj => ?_
  have hget := h j _ (List.getElem?_eq_getElem hj)
  simpa using hget

theorem CodeAt.segment_eq {k : Nat} {code : List Instruction} (h : CodeAt p k code) :
    p.segment k (k + code.length) = code := by
  rw [Program.segment, Nat.add_sub_cancel_left]
  exact (List.prefix_iff_eq_take.1 h.prefix_drop).symm

/-! ## Constants -/

/-- The next allocation is counted and not refused. -/
def Pays (t : State) : Prop :=
  count.run t = .ok () { t with meter := t.meter.map (Meter.charge 1) }

theorem count_cases (t : State) :
    Pays t ∨ ∃ limit n, count.run t = .error (.limit (.allocation limit n)) t := by
  obtain ⟨meter, memory, stack, frame, callers, position, output⟩ := t
  unfold Pays
  simp only [run_count]
  cases meter with
  | none => exact .inl rfl
  | some m =>
    simp only [Option.map_some]
    rcases m.allocate_cases with ⟨limit, n, he⟩ | hok
    · rw [he]
      exact .inr ⟨limit, n, rfl⟩
    · rw [hok]
      exact .inl rfl

/-- The state with an integer on the stack that took `count` instructions and as many allocations. -/
def State.computed (t : State) (count : Nat) (value : Int) : State :=
  { t with
    stack := .int value :: t.stack
    meter := t.meter.map (Meter.charge count)
    position := t.position + count }

section PushInt

variable {i : Instruction} (hi : p.instructions[t.position]? = some i) (u : State) {value : Int}
  (he : (execute i p).run t = (pushInt value >>= fun _ => pure Control.next).run u)
include hi he

/-- An instruction pushes an integer where it does what pushing it does in another state. -/
theorem turn_pushInt (hpays : Pays u) : turn p t = (u.computed 1 value, none) := by
  rw [EStateM.run_bind, run_pushInt, hpays] at he
  exact turn_ok hi he

theorem Affords.pays (h : Affords p t) : Pays u := by
  rcases count_cases u with hpays | ⟨limit, n, hc⟩
  · exact hpays
  · rw [EStateM.run_bind, run_pushInt, hc] at he
    exact absurd ⟨limit, n, rfl⟩ (h.not_allocation hi he)

end PushInt

theorem computed_computed (t : State) (stack : List Datum) (m n : Nat) (a value : Int) :
    ({ t.computed m a with stack } : State).computed n value =
      ({ t with stack } : State).computed (m + n) value := by
  simp only [State.computed, Option.map_map, Nat.add_assoc]
  congr 1
  exact congrArg (t.meter.map ·) (funext fun meter => Meter.charge_charge meter m n)

/-- Code that computes a constant leaves it on the stack, and each of its instructions allocates once. -/
theorem run_computes {code : List Instruction} {value : Int} (hc : Computes code value)
    (hcode : CodeAt p t.position code) (h : Affords p t) :
    Pays t ∧ 0 < code.length ∧
      runFrom p code.length t = (t.computed code.length value, none) := by
  induction hc generalizing t with
  | @push arg value hread =>
    have he : (execute ⟨.push, [arg]⟩ p).run t =
        (pushInt value >>= fun _ => pure Control.next).run t := by
      show (pushArgument arg >>= fun _ => pure Control.next).run t = _
      rw [pushArgument, hread]
    have hpays := h.pays hcode.head t he
    refine ⟨hpays, Nat.one_pos, ?_⟩
    rw [List.length_singleton, runFrom_one, turn_pushInt hcode.head t he hpays]
  | @neg operand a hoperand ih =>
    obtain ⟨hpays, hpos, hrun⟩ := ih hcode.left h
    have he : (execute ⟨.neg, []⟩ p).run (t.computed operand.length a) =
        (pushInt (-a) >>= fun _ => pure Control.next).run
          { t.computed operand.length a with stack := t.stack } := rfl
    have hhead := hcode.right.head
    have ht := turn_pushInt hhead _ he ((h.later hrun).pays hhead _ he)
    refine ⟨hpays, by simp, ?_⟩
    rw [List.length_append, List.length_singleton, runFrom_add hrun, runFrom_one, ht,
      computed_computed]
  | @binary op lhs rhs a b value hlhs hrhs hop ihl ihr =>
    -- the right operand runs from where the left one has left its value
    obtain ⟨hpays, hpos, hrun⟩ := ihl hcode.left.left h
    obtain ⟨-, -, hrun'⟩ := ihr hcode.left.right (h.later hrun)
    have he : (execute ⟨.binary op, []⟩ p).run ((t.computed lhs.length a).computed rhs.length b) =
        (pushInt value >>= fun _ => pure Control.next).run
          { (t.computed lhs.length a).computed rhs.length b with stack := t.stack } := by
      simp only [execute, applyOperator, EStateM.run_bind, run_popPair, State.computed, run_intOf, hop]
    have hhead := hcode.right.head
    rw [List.length_append, ← Nat.add_assoc] at hhead
    have ht := turn_pushInt hhead _ he (((h.later hrun).later hrun').pays hhead _ he)
    have hlength : (lhs ++ rhs ++ [(⟨.binary op, []⟩ : Instruction)]).length =
        lhs.length + (rhs.length + 1) := by
      simp only [List.length_append, List.length_singleton, Nat.add_assoc]
    rw [hlength]
    refine ⟨hpays, by omega, ?_⟩
    rw [runFrom_add hrun, runFrom_add hrun', runFrom_one, ht, computed_computed]
    exact congrArg (·, none) (computed_computed t t.stack lhs.length (rhs.length + 1) a value)

end CMinusMinus.Ideal
