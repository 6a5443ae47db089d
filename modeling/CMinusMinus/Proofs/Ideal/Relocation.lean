import CMinusMinus.Proofs.Ideal.Machine
import CMinusMinus.Proofs.Machine.Relocation

/-!
# Moved states that allocated less

Two states of the machine without a heap that differ in where control is and in the number of allocations
counted so far do the same, as long as the one that counted more is not stopped by the limit of
allocations.
-/

namespace CMinusMinus

/-! ## Meters -/

/-- The meter with more allocations counted. -/
def Meter.charge (count : Nat) : Meter → Meter
  | plain => plain
  | counting limits allocated freed => counting limits (allocated + count) freed

/-- The limit of allocations is exceeded. -/
def Fault.Cause.IsAllocation (cause : Cause) : Prop :=
  ∃ limit count, cause = .limit (.allocation limit count)

theorem Meter.checkDepth_charge (count depth : Nat) (m : Meter) :
    (m.charge count).checkDepth depth = m.checkDepth depth := by
  cases m <;> rfl

theorem Meter.checkArrayLength_charge (count length : Nat) (m : Meter) :
    (m.charge count).checkArrayLength length = m.checkArrayLength length := by
  cases m <;> rfl

theorem Meter.charge_zero (m : Meter) : m.charge 0 = m := by
  cases m <;> rfl

theorem Meter.charge_charge (m : Meter) (a b : Nat) : (m.charge a).charge b = m.charge (a + b) := by
  cases m with
  | plain => rfl
  | counting limits allocated freed => simp only [charge, Nat.add_assoc]

/-- An allocation is refused by the limit of allocations, or counted. -/
theorem Meter.allocate_cases (m : Meter) :
    (∃ limit count, m.allocate = .error (.allocation limit count)) ∨ m.allocate = .ok (m.charge 1) := by
  cases m with
  | plain => exact .inr rfl
  | counting limits allocated freed =>
    cases hl : limits.allocations with
    | none => exact .inr (by simp only [allocate, hl, charge])
    | some limit =>
      by_cases hfull : allocated ≥ limit
      · exact .inl ⟨limit, allocated + 1, by simp only [allocate, hl, if_pos hfull]⟩
      · exact .inr (by simp only [allocate, hl, if_neg hfull, charge])

/-- What is allowed after more allocations is allowed after fewer. -/
theorem Meter.allocate_of_charge {m : Meter} {count : Nat}
    (h : (m.charge count).allocate = .ok ((m.charge count).charge 1)) :
    m.allocate = .ok (m.charge 1) := by
  cases m with
  | plain => rfl
  | counting limits allocated freed =>
    cases hl : limits.allocations with
    | none => simp only [allocate, hl, charge]
    | some limit =>
      simp only [allocate, hl, charge] at h ⊢
      split at h
      · cases h
      · rw [if_neg (by omega)]

namespace Ideal

/-! ## Actions -/

/-- The same state but for where control is, with `k` allocations less counted in `u`. -/
structure Cheaper (k : Nat) (t u : State) : Prop where
  memory : u.memory = t.memory
  stack : u.stack = t.stack
  bindings : u.frame.bindings = t.frame.bindings
  output : u.output = t.output
  meter : t.meter = u.meter.map (Meter.charge k)

/-- Control is where it was. -/
structure Stays (t t' : State) : Prop where
  position : t'.position = t.position
  returnAddress : t'.frame.returnAddress = t.frame.returnAddress
  callers : t'.callers = t.callers

theorem Stays.refl (t : State) : Stays t t :=
  ⟨rfl, rfl, rfl⟩

theorem Stays.trans {t t' t'' : State} (h : Stays t t') (h' : Stays t' t'') : Stays t t'' :=
  ⟨h'.position.trans h.position, h'.returnAddress.trans h.returnAddress, h'.callers.trans h.callers⟩

/-- Results that are the same but for where control is and how much was allocated; nothing is said of the
second one where the first one exceeds the limit of allocations. -/
def Parallel {α : Type} (k : Nat) (t u : State) :
    EStateM.Result Fault.Cause State α → EStateM.Result Fault.Cause State α → Prop
  | .ok x t', .ok y u' => x = y ∧ Cheaper k t' u' ∧ Stays t t' ∧ Stays u u'
  | .ok _ _, .error _ _ => False
  | .error cause _, .ok _ _ => cause.IsAllocation
  | .error cause t', .error cause' u' => cause.IsAllocation ∨ cause = cause' ∧ Cheaper k t' u'

/-- An action does the same in states that are the same but for where control is. -/
def Mirrors {α : Type} (k : Nat) (a : Action α) : Prop :=
  ∀ t u, Cheaper k t u → Parallel k t u (a.run t) (a.run u)

section Mirrors

variable {α β : Type} {k : Nat}

theorem parallel_error {t u : State} (h : Cheaper k t u) (cause : Fault.Cause) :
    Parallel k t u (.error cause t : EStateM.Result Fault.Cause State α) (.error cause u) :=
  .inr ⟨rfl, h⟩

/-- Control stays where it is through one action after another. -/
theorem Parallel.after {t t' u u' : State} (ht : Stays t t') (hu : Stays u u')
    {r r' : EStateM.Result Fault.Cause State α} (h : Parallel k t' u' r r') : Parallel k t u r r' := by
  rcases r with ⟨x, t''⟩ | ⟨cause, t''⟩
  · rcases r' with ⟨y, u''⟩ | ⟨cause', u''⟩
    · exact ⟨h.1, h.2.1, ht.trans h.2.2.1, hu.trans h.2.2.2⟩
    · exact h
  · rcases r' with ⟨y, u''⟩ | ⟨cause', u''⟩
    · exact h
    · exact h

theorem parallel_allocation {t t' u : State} {cause : Fault.Cause} (hc : cause.IsAllocation)
    (r : EStateM.Result Fault.Cause State α) : Parallel k t u (.error cause t') r := by
  rcases r with ⟨y, u'⟩ | ⟨cause', u'⟩
  · exact hc
  · exact .inl hc

theorem Mirrors.bind {a : Action α} {f : α → Action β} (ha : Mirrors k a)
    (hf : ∀ x, Mirrors k (f x)) : Mirrors k (a >>= f) := by
  intro t u h
  have ha := ha t u h
  rw [EStateM.run_bind, EStateM.run_bind]
  cases hr : a.run t with
  | ok x t' =>
    rw [hr] at ha
    cases hr' : a.run u with
    | error cause' u' =>
      rw [hr'] at ha
      exact ha.elim
    | ok y u' =>
      rw [hr'] at ha
      obtain ⟨rfl, h', ht, hu⟩ := ha
      exact (hf x t' u' h').after ht hu
  | error cause t' =>
    rw [hr] at ha
    cases hr' : a.run u with
    | ok y u' =>
      rw [hr'] at ha
      exact parallel_allocation ha _
    | error cause' u' =>
      rw [hr'] at ha
      exact ha

theorem mirrors_pure (x : α) : Mirrors k (pure x) :=
  fun t u h => ⟨rfl, h, .refl t, .refl u⟩

theorem mirrors_throw (cause : Fault.Cause) : Mirrors k (throw cause : Action α) :=
  fun _ _ h => parallel_error h cause

theorem mirrors_push (datum : Datum) : Mirrors k (push datum) := by
  intro t u h
  exact ⟨rfl, ⟨h.memory, congrArg (datum :: ·) h.stack, h.bindings, h.output, h.meter⟩,
    ⟨rfl, rfl, rfl⟩, ⟨rfl, rfl, rfl⟩⟩

theorem mirrors_pop (opcode : Opcode) : Mirrors k (pop opcode) := by
  intro t u h
  rw [run_pop, run_pop, h.stack]
  cases t.stack with
  | nil => exact parallel_error h _
  | cons datum stack =>
    exact ⟨rfl, ⟨h.memory, rfl, h.bindings, h.output, h.meter⟩, ⟨rfl, rfl, rfl⟩, ⟨rfl, rfl, rfl⟩⟩

theorem mirrors_popPair (opcode : Opcode) : Mirrors k (popPair opcode) := by
  intro t u h
  rw [run_popPair, run_popPair, h.stack]
  rcases t.stack with _ | ⟨top, _ | ⟨below, stack⟩⟩
  · exact parallel_error h _
  · exact parallel_error h _
  · exact ⟨rfl, ⟨h.memory, rfl, h.bindings, h.output, h.meter⟩, ⟨rfl, rfl, rfl⟩, ⟨rfl, rfl, rfl⟩⟩

theorem mirrors_check {f : Meter → Except LimitError Unit} (hf : ∀ m : Meter, f (m.charge k) = f m) :
    Mirrors k (check f) := by
  intro t u h
  rw [run_check, run_check, h.meter, Option.map_map]
  have hcharge : f ∘ Meter.charge k = f := funext hf
  rw [hcharge]
  rcases u.meter.map f with _ | e | _
  · exact ⟨rfl, h, .refl t, .refl u⟩
  · exact parallel_error h _
  · exact ⟨rfl, h, .refl t, .refl u⟩

theorem mirrors_count : Mirrors k count := by
  intro t u h
  rw [run_count, run_count, h.meter]
  cases hu : u.meter with
  | none => exact ⟨rfl, h, .refl t, .refl u⟩
  | some m =>
    simp only [Option.map_some]
    rcases (m.charge k).allocate_cases with ⟨limit, count, he⟩ | hok
    · rw [he]
      rcases m.allocate_cases with ⟨limit', count', he'⟩ | hok'
      · rw [he']
        exact .inl ⟨limit, count, rfl⟩
      · rw [hok']
        exact ⟨limit, count, rfl⟩
    · rw [hok, Meter.allocate_of_charge hok]
      refine ⟨rfl, ⟨h.memory, h.stack, h.bindings, h.output, ?_⟩, ⟨rfl, rfl, rfl⟩, ⟨rfl, rfl, rfl⟩⟩
      simp only [Option.map_some, Meter.charge_charge, Nat.add_comm]

theorem mirrors_intOf (datum : Datum) (operation : String) : Mirrors k (intOf datum operation) := by
  cases datum with
  | int value => exact mirrors_pure value
  | array address => exact mirrors_throw _

theorem mirrors_addressOf (datum : Datum) (operation : String) :
    Mirrors k (addressOf datum operation) := by
  cases datum with
  | int value => exact mirrors_throw _
  | array address => exact mirrors_pure address

theorem mirrors_elementsAt (address : Nat) : Mirrors k (elementsAt address) := by
  intro t u h
  exact ⟨by rw [h.memory], h, .refl t, .refl u⟩

theorem mirrors_lookup (name : String) : Mirrors k (lookup name) := by
  intro t u h
  rw [run_lookup, run_lookup, h.bindings]
  cases t.frame.bindings.lookup name with
  | none => exact parallel_error h _
  | some datum => exact ⟨rfl, h, .refl t, .refl u⟩

theorem mirrors_bind (name : String) (datum : Datum) : Mirrors k (bind name datum) := by
  intro t u h
  refine ⟨rfl, ⟨h.memory, h.stack, ?_, h.output, h.meter⟩, ⟨rfl, rfl, rfl⟩, ⟨rfl, rfl, rfl⟩⟩
  show (name, datum) :: u.frame.bindings.filter _ = _
  rw [h.bindings]
  rfl

theorem mirrors_print (datum : Datum) : Mirrors k (print datum) := by
  intro t u h
  refine ⟨rfl, ⟨h.memory, h.stack, h.bindings, ?_, h.meter⟩, ⟨rfl, rfl, rfl⟩, ⟨rfl, rfl, rfl⟩⟩
  show u.output ++ u.memory.text datum ++ "\n" = _
  rw [h.output, h.memory]

theorem mirrors_elementIndex (datum : Datum) (name : String) (length : Nat) :
    Mirrors k (elementIndex datum name length) := by
  refine (mirrors_intOf datum _).bind fun index => ?_
  split
  · exact mirrors_pure _
  · exact mirrors_throw _

theorem mirrors_checkRoom (length : Nat) (name : String) : Mirrors k (checkRoom length name) := by
  intro t u h
  rw [run_checkRoom, run_checkRoom, h.meter, Option.isSome_map]
  split
  · exact parallel_error h _
  · exact ⟨rfl, h, .refl t, .refl u⟩

theorem mirrors_allocateArray (elements : List Datum) : Mirrors k (allocateArray elements) := by
  refine mirrors_count.bind fun _ t u h => ?_
  refine ⟨by rw [h.memory], ⟨?_, h.stack, h.bindings, h.output, h.meter⟩, ⟨rfl, rfl, rfl⟩,
    ⟨rfl, rfl, rfl⟩⟩
  show u.memory ++ [elements] = _
  rw [h.memory]

theorem mirrors_store (address position : Nat) (value : Datum) :
    Mirrors k (modify fun t => { t with memory := t.memory.store address position value }) := by
  intro t u h
  refine ⟨rfl, ⟨?_, h.stack, h.bindings, h.output, h.meter⟩, ⟨rfl, rfl, rfl⟩, ⟨rfl, rfl, rfl⟩⟩
  show u.memory.store address position value = _
  rw [h.memory]

theorem mirrors_pushInt (value : Int) : Mirrors k (pushInt value) :=
  mirrors_count.bind fun _ => mirrors_push _

theorem mirrors_pushArgument (arg : String) : Mirrors k (pushArgument arg) := by
  unfold pushArgument
  cases Text.readInt? arg with
  | some value => exact mirrors_pushInt value
  | none => exact (mirrors_lookup arg).bind fun datum => mirrors_push datum

theorem mirrors_applyOperator (opcode : Opcode) (op : BinaryOp) :
    Mirrors k (applyOperator opcode op) := by
  refine (mirrors_popPair opcode).bind fun pair => ?_
  refine (mirrors_intOf _ _).bind fun a => (mirrors_intOf _ _).bind fun b => ?_
  cases op.apply a b with
  | ok value => exact mirrors_pushInt value
  | error e => exact mirrors_throw _

theorem mirrors_negate : Mirrors k negate :=
  (mirrors_pop .neg).bind fun _ => (mirrors_intOf _ _).bind fun _ => mirrors_pushInt _

theorem mirrors_makeArray (name : String) : Mirrors k (makeArray name) := by
  refine (mirrors_pop .array).bind fun datum => (mirrors_intOf _ _).bind fun size => ?_
  split
  · exact mirrors_throw _
  · refine (mirrors_check (Meter.checkArrayLength_charge k _)).bind fun _ => ?_
    refine (mirrors_checkRoom _ _).bind fun _ => mirrors_count.bind fun _ => ?_
    exact (mirrors_allocateArray _).bind fun array => mirrors_bind name array

theorem mirrors_readElement (name : String) : Mirrors k (readElement name) := by
  refine (mirrors_pop .access).bind fun datum => (mirrors_lookup name).bind fun array => ?_
  refine (mirrors_addressOf array _).bind fun address => (mirrors_elementsAt address).bind fun _ => ?_
  refine (mirrors_elementIndex _ _ _).bind fun index => ?_
  split
  · exact mirrors_push _
  · exact mirrors_pure _

theorem mirrors_writeElement (name : String) : Mirrors k (writeElement name) := by
  refine (mirrors_popPair .pop).bind fun pair => (mirrors_lookup name).bind fun array => ?_
  refine (mirrors_addressOf array _).bind fun address => (mirrors_elementsAt address).bind fun _ => ?_
  exact (mirrors_elementIndex _ _ _).bind fun index => mirrors_store _ _ _

theorem mirrors_pushLength (name : String) : Mirrors k (pushLength name) := by
  refine (mirrors_lookup name).bind fun array => (mirrors_addressOf array _).bind fun address => ?_
  exact (mirrors_elementsAt address).bind fun _ => mirrors_pushInt _

end Mirrors

/-! ## Instructions -/

/-- What an instruction is to control. -/
inductive Shape (i : Instruction) : Prop where
  | straight (a : Action Unit) (ha : ∀ k, Mirrors k a)
      (he : ∀ p, execute i p = a >>= fun _ => pure .next) (ho : i.opcode.isStraight = true)
  | test (label : String) (hi : i = ⟨.jz, [label]⟩)
  | jump (label : String) (hi : i = ⟨.jmp, [label]⟩)
  | call (label : String) (hi : i = ⟨.call, [label]⟩)
  | ret (count : String) (hi : i = ⟨.ret, [count]⟩)
  | malformed (he : ∀ p, execute i p = throw (.arity i.opcode i.args.length))

theorem shape (i : Instruction) : Shape i := by
  obtain ⟨opcode, args⟩ := i
  by_cases hm : ∀ p, execute ⟨opcode, args⟩ p = throw (.arity opcode args.length)
  · exact .malformed hm
  unfold execute at hm
  split at hm
  case h_15 => exact absurd (fun _ => rfl) hm
  all_goals
    rename_i ho ha
    dsimp only at ho ha
    subst ho ha
  · exact .straight _ (fun _ => mirrors_pushArgument _) (fun _ => rfl) rfl
  · exact .straight _ (fun _ => (mirrors_pop _).bind fun _ => mirrors_pure _) (fun _ => rfl) rfl
  · exact .straight _ (fun _ => (mirrors_pop _).bind fun _ => mirrors_bind _ _)
      (fun _ => (bind_assoc ..).symm) rfl
  · exact .straight _ (fun _ => mirrors_writeElement _) (fun _ => rfl) rfl
  · exact .straight _ (fun _ => (mirrors_pop _).bind fun _ => mirrors_print _)
      (fun _ => (bind_assoc ..).symm) rfl
  · exact .straight _ (fun _ => mirrors_negate) (fun _ => rfl) rfl
  · exact .straight _ (fun _ => mirrors_applyOperator _ _) (fun _ => rfl) rfl
  · exact .test _ rfl
  · exact .jump _ rfl
  · exact .call _ rfl
  · exact .ret _ rfl
  · exact .straight _ (fun _ => mirrors_makeArray _) (fun _ => rfl) rfl
  · exact .straight _ (fun _ => mirrors_readElement _) (fun _ => rfl) rfl
  · exact .straight _ (fun _ => mirrors_pushLength _) (fun _ => rfl) rfl

/-! ## Moved states -/

/-- The frame with its return address moved. -/
def Frame.move (f : Nat → Nat) (frame : Frame) : Frame :=
  { frame with returnAddress := f frame.returnAddress }

/-- The state `u` is `t` with all positions moved and `k` allocations less. -/
structure Moved (f : Nat → Nat) (k : Nat) (t u : State) : Prop extends Cheaper k t u where
  position : u.position = f t.position
  returnAddress : u.frame.returnAddress = f t.frame.returnAddress
  callers : u.callers = t.callers.map (Frame.move f)

/-- The return addresses of all frames, the current one first. -/
def State.returns (t : State) : List Nat :=
  t.frame.returnAddress :: t.callers.map Frame.returnAddress

theorem Moved.stays {f : Nat → Nat} {k : Nat} {t u t' u' : State} (h : Moved f k t u)
    (hc : Cheaper k t' u') (ht : Stays t t') (hu : Stays u u') : Moved f k t' u' :=
  ⟨hc, by rw [hu.position, ht.position, h.position],
    by rw [hu.returnAddress, ht.returnAddress, h.returnAddress],
    by rw [hu.callers, ht.callers, h.callers]⟩

theorem Stays.returns {t t' : State} (h : Stays t t') : t'.returns = t.returns := by
  simp only [State.returns, h.returnAddress, h.callers]

/-- What an instruction does in a state of a program and in the moved state of the program with moved
labels. -/
def Tracks (p : Program) (f : Nat → Nat) (k : Nat) (i : Instruction) (t : State) :
    EStateM.Result Fault.Cause State Control → EStateM.Result Fault.Cause State Control → Prop
  | .ok c t', .ok d u' => d = c.move f ∧ Moved f k t' u' ∧ t'.position = t.position ∧
      Flow p i t.position t.returns c t'.returns
  | .ok _ _, .error _ _ => False
  | .error cause _, .ok _ _ => cause.IsAllocation
  | .error cause t', .error cause' u' => cause.IsAllocation ∨ cause = cause' ∧ Cheaper k t' u'

theorem tracks_error {p : Program} {f : Nat → Nat} {k : Nat} {i : Instruction} {t u : State}
    (h : Moved f k t u) (cause : Fault.Cause) :
    Tracks p f k i t (.error cause t) (.error cause u) :=
  .inr ⟨rfl, h.toCheaper⟩

section Tracks

variable {p q : Program} {f : Nat → Nat} {k : Nat} {t u : State}

theorem tracks_straight {i : Instruction} {a : Action Unit} (ha : Mirrors k a)
    (ho : i.opcode.isStraight = true) (h : Moved f k t u) :
    Tracks p f k i t ((a >>= fun _ => pure Control.next).run t)
      ((a >>= fun _ => pure Control.next).run u) := by
  have ha := ha t u h.toCheaper
  rw [EStateM.run_bind, EStateM.run_bind]
  cases hr : a.run t with
  | ok x t' =>
    rw [hr] at ha
    cases hr' : a.run u with
    | error cause' u' =>
      rw [hr'] at ha
      exact ha.elim
    | ok y u' =>
      rw [hr'] at ha
      obtain ⟨-, hc, ht, hu⟩ := ha
      refine ⟨rfl, h.stays hc ht hu, ht.position, ?_⟩
      rw [ht.returns]
      exact .next (Opcode.ne_of_isStraight ho rfl) (Opcode.ne_of_isStraight ho rfl)
        (Opcode.ne_of_isStraight ho rfl)
  | error cause t' =>
    rw [hr] at ha
    cases hr' : a.run u with
    | ok y u' =>
      rw [hr'] at ha
      exact ha
    | error cause' u' =>
      rw [hr'] at ha
      exact ha

variable (hl : ∀ label, q.labels.get? label = (p.labels.get? label).map f)
include hl

theorem tracks_test (label : String) (h : Moved f k t u) :
    Tracks p f k ⟨.jz, [label]⟩ t ((jumpIfZero p label).run t) ((jumpIfZero q label).run u) := by
  rw [run_jumpIfZero, run_jumpIfZero, hl]
  cases ht : p.labels.get? label with
  | none => exact tracks_error h _
  | some target =>
    simp only [Option.map_some, h.stack]
    rcases t.stack with _ | ⟨datum, stack⟩
    · exact tracks_error h _
    · have hcheaper : Cheaper k { t with stack } { u with stack } :=
        ⟨h.memory, rfl, h.bindings, h.output, h.meter⟩
      cases datum with
      | array address => exact .inr ⟨rfl, hcheaper⟩
      | int value =>
        have hmoved := h.stays hcheaper ⟨rfl, rfl, rfl⟩ ⟨rfl, rfl, rfl⟩
        dsimp only
        split
        · exact ⟨rfl, hmoved, rfl, .jump rfl (.inl rfl) ht⟩
        · exact ⟨rfl, hmoved, rfl, .next (by simp) (by simp) (by simp)⟩

theorem tracks_jump (label : String) (h : Moved f k t u) :
    Tracks p f k ⟨.jmp, [label]⟩ t
      ((resolve p label >>= fun target => pure (Control.jump target)).run t)
      ((resolve q label >>= fun target => pure (Control.jump target)).run u) := by
  rw [EStateM.run_bind, EStateM.run_bind, run_resolve, run_resolve, hl]
  cases ht : p.labels.get? label with
  | none => exact tracks_error h _
  | some target => exact ⟨rfl, h, rfl, .jump rfl (.inr rfl) ht⟩

theorem tracks_call (label : String) (h : Moved f k t u)
    (hn : f (t.position + 1) = f t.position + 1) :
    Tracks p f k ⟨.call, [label]⟩ t ((enter p label).run t) ((enter q label).run u) := by
  rw [run_enter, run_enter, hl]
  cases ht : p.labels.get? label with
  | none => exact tracks_error h _
  | some target =>
    have hlength : u.callers.length = t.callers.length := by rw [h.callers, List.length_map]
    have hcheck : t.meter.map (Meter.checkDepth (t.callers.length + 1)) =
        u.meter.map (Meter.checkDepth (t.callers.length + 1)) := by
      rw [h.meter, Option.map_map]
      exact congrArg (u.meter.map ·) (funext (Meter.checkDepth_charge k _))
    simp only [Option.map_some, hlength, hcheck]
    have hentered : Moved f k
        { t with frame := ⟨[], t.position + 1⟩, callers := t.frame :: t.callers }
        { u with frame := ⟨[], u.position + 1⟩, callers := u.frame :: u.callers } := by
      refine ⟨⟨h.memory, h.stack, rfl, h.output, h.meter⟩, h.position, ?_, ?_⟩
      · show u.position + 1 = f (t.position + 1)
        rw [h.position, hn]
      · have hframe : u.frame = t.frame.move f := by
          show u.frame = ⟨t.frame.bindings, f t.frame.returnAddress⟩
          rw [← h.bindings, ← h.returnAddress]
        show u.frame :: u.callers = _
        rw [hframe, h.callers]
        rfl
    rcases u.meter.map (Meter.checkDepth (t.callers.length + 1)) with _ | e | _
    · exact ⟨rfl, hentered, rfl, .enter rfl rfl ht⟩
    · exact tracks_error h _
    · exact ⟨rfl, hentered, rfl, .enter rfl rfl ht⟩

omit hl in
theorem tracks_ret (count : String) (h : Moved f k t u) :
    Tracks p f k ⟨.ret, [count]⟩ t ((leave count).run t) ((leave count).run u) := by
  rw [run_leave, run_leave]
  cases Text.readCount? count with
  | none => exact tracks_error h _
  | some count =>
    simp only [h.callers, h.stack]
    cases hc : t.callers with
    | nil =>
      have ht : t.returns = [t.frame.returnAddress] := by
        simp only [State.returns, hc, List.map_nil]
      refine ⟨rfl, h, rfl, ?_⟩
      rw [ht]
      exact .halt rfl
    | cons caller callers =>
      simp only [List.map_cons]
      split
      · exact tracks_error h _
      · refine ⟨congrArg Control.leave h.returnAddress,
          ⟨⟨h.memory, rfl, rfl, h.output, h.meter⟩, h.position, rfl, rfl⟩, rfl, ?_⟩
        simp only [State.returns, hc, List.map_cons]
        exact .leave rfl

/-- An instruction does the same in a moved state that allocated less. -/
theorem tracks_execute (i : Instruction) (h : Moved f k t u)
    (hn : f (t.position + 1) = f t.position + 1) :
    Tracks p f k i t ((execute i p).run t) ((execute i q).run u) := by
  cases shape i with
  | straight a ha he ho =>
    rw [he, he]
    exact tracks_straight (ha k) ho h
  | test label hi =>
    subst hi
    exact tracks_test hl label h
  | jump label hi =>
    subst hi
    exact tracks_jump hl label h
  | call label hi =>
    subst hi
    exact tracks_call hl label h hn
  | ret count hi =>
    subst hi
    exact tracks_ret count h
  | malformed he =>
    rw [he, he]
    exact tracks_error h _

end Tracks

end Ideal

end CMinusMinus
