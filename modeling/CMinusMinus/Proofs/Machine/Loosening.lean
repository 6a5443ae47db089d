import CMinusMinus.Proofs.Machine.Locality
import CMinusMinus.Proofs.Machine.Primitives
import CMinusMinus.Proofs.Machine.Turns
import Mathlib

/-!
# Looser limits

Only three actions look at the limits of a run, and each of them stops the run before the thing is done that
would break a limit. So a run with looser limits does the same, turn by turn, until the other one is
stopped, and what was printed and told by then stays. A meter without limits of its own cannot be told from
one with the standard limits at all.
-/

namespace CMinusMinus

/-! ## Meters -/

/-- A bound that allows no more than another one does; what is missing allows everything. -/
def Limits.AtMost (bound bound' : Option Nat) : Prop :=
  ∀ n', bound' = some n' → ∃ n, bound = some n ∧ n ≤ n'

/-- Limits that allow no more than others, with collections as often. -/
structure Limits.Within (limits limits' : Limits) : Prop where
  allocations : AtMost limits.allocations limits'.allocations
  depth : AtMost limits.depth limits'.depth
  arrayLength : AtMost limits.arrayLength limits'.arrayLength
  interval : (Meter.ofLimits limits').interval = (Meter.ofLimits limits).interval

/-- A meter that checks no more than another one, which may stop a run earlier, and one that checks the
same. -/
inductive Meter.Looser : Bool → Meter → Meter → Prop where
  | within {limits limits' : Limits} (h : limits.Within limits') (allocated freed : Nat) :
    Looser true (counting limits allocated freed) (counting limits' allocated freed)
  | standard (allocated freed : Nat) : Looser false plain (counting .standard allocated freed)

namespace Meter

/-- A result, unless a bound is exceeded. -/
def bounded {β : Type} (bound : Option Nat) (exceeds : Nat → Prop) [DecidablePred exceeds]
    (error : Nat → LimitError) (result : β) : Except LimitError β :=
  match bound with
  | some n => if exceeds n then .error (error n) else .ok result
  | none => .ok result

theorem bounded_atMost {β β' : Type} {bound bound' : Option Nat} (h : Limits.AtMost bound bound')
    {exceeds : Nat → Prop} [DecidablePred exceeds] (hmono : ∀ n n', n ≤ n' → exceeds n' → exceeds n)
    (error : Nat → LimitError) (result : β) (result' : β') :
    bounded bound exceeds error result = .ok result ∧
        bounded bound' exceeds error result' = .ok result' ∨
      ∃ e, bounded bound exceeds error result = .error e := by
  cases bound' with
  | none =>
    cases bound with
    | none => exact .inl ⟨rfl, rfl⟩
    | some n =>
      by_cases hn : exceeds n
      · exact .inr ⟨_, if_pos hn⟩
      · exact .inl ⟨if_neg hn, rfl⟩
  | some n' =>
    obtain ⟨n, rfl, hle⟩ := h n' rfl
    by_cases hn : exceeds n
    · exact .inr ⟨_, if_pos hn⟩
    · exact .inl ⟨if_neg hn, if_neg fun hn' => hn (hmono n n' hle hn')⟩

theorem bounded_check {β : Type} {bound bound' : Option Nat} (h : Limits.AtMost bound bound')
    {exceeds : Nat → Prop} [DecidablePred exceeds] (hmono : ∀ n n', n ≤ n' → exceeds n' → exceeds n)
    (error : Nat → LimitError) (result : β) :
    bounded bound' exceeds error result = bounded bound exceeds error result ∨
      ∃ e, bounded bound exceeds error result = .error e :=
  (bounded_atMost h hmono error result result).imp_left fun ⟨hr, hr'⟩ => hr'.trans hr.symm

variable (limits : Limits) (allocated freed : Nat)

theorem allocate_eq_bounded : (counting limits allocated freed).allocate =
    bounded limits.allocations (allocated ≥ ·) (.allocation · (allocated + 1))
      (counting limits (allocated + 1) freed) := by
  obtain ⟨allocations, interval, depth, arrayLength⟩ := limits
  cases allocations <;> rfl

theorem checkDepth_eq_bounded (current : Nat) :
    (counting limits allocated freed).checkDepth current =
      bounded limits.depth (current ≥ ·) (.depth · (current + 1)) () := by
  obtain ⟨allocations, interval, depth, arrayLength⟩ := limits
  cases depth <;> rfl

theorem checkArrayLength_eq_bounded (length : Nat) :
    (counting limits allocated freed).checkArrayLength length =
      bounded limits.arrayLength (length > ·) (.arrayLength · length) () := by
  obtain ⟨allocations, interval, depth, arrayLength⟩ := limits
  cases arrayLength <;> rfl

section Looser

variable {cut : Bool} {m m' : Meter}

theorem Looser.allocate (h : Looser cut m m') :
    (∃ n n', m.allocate = .ok n ∧ m'.allocate = .ok n' ∧ Looser cut n n') ∨
      cut = true ∧ ∃ e, m.allocate = .error e := by
  cases h with
  | standard allocated freed => exact .inl ⟨_, _, rfl, rfl, .standard (allocated + 1) freed⟩
  | within h allocated freed =>
    rw [allocate_eq_bounded, allocate_eq_bounded]
    rcases bounded_atMost h.allocations (fun n n' hn hc => Nat.le_trans hn hc) (.allocation · _) _ _ with
      ⟨hr, hr'⟩ | he
    · exact .inl ⟨_, _, hr, hr', .within h _ _⟩
    · exact .inr ⟨rfl, he⟩

theorem Looser.checkDepth (h : Looser cut m m') (current : Nat) :
    m'.checkDepth current = m.checkDepth current ∨
      cut = true ∧ ∃ e, m.checkDepth current = .error e := by
  cases h with
  | standard => exact .inl rfl
  | within h =>
    rw [checkDepth_eq_bounded, checkDepth_eq_bounded]
    exact (bounded_check h.depth (fun n n' hn hc => Nat.le_trans hn hc) _ ()).imp_right (⟨rfl, ·⟩)

theorem Looser.checkArrayLength (h : Looser cut m m') (length : Nat) :
    m'.checkArrayLength length = m.checkArrayLength length ∨
      cut = true ∧ ∃ e, m.checkArrayLength length = .error e := by
  cases h with
  | standard => exact .inl rfl
  | within h =>
    rw [checkArrayLength_eq_bounded, checkArrayLength_eq_bounded]
    exact (bounded_check h.arrayLength (fun n n' hn hc => Nat.lt_of_le_of_lt hn hc) _ ()).imp_right
      (⟨rfl, ·⟩)

theorem Looser.free (h : Looser cut m m') (count : Nat) : Looser cut (m.free count) (m'.free count) := by
  cases h with
  | standard => exact .standard _ _
  | within h => exact .within h _ _

theorem Looser.interval (h : Looser cut m m') : m'.interval = m.interval := by
  cases h with
  | standard => rfl
  | within h => exact h.interval

theorem Looser.counts? (h : Looser true m m') : m'.counts? = m.counts? := by
  cases h
  rfl

end Looser

end Meter

/-! ## Actions -/

/-- The state under another meter. -/
def State.metered (meter : Meter) (s : State) : State :=
  { s with meter }

/-- The same state under a looser meter. -/
def State.Loosens (cut : Bool) (s s' : State) : Prop :=
  ∃ meter, s.meter.Looser cut meter ∧ s' = s.metered meter

/-- What is printed in a state is printed in a later one. -/
def State.Prints (s t : State) : Prop :=
  ∃ text, t.output = s.output ++ text

theorem State.Prints.refl (s : State) : s.Prints s :=
  ⟨"", String.append_empty.symm⟩

theorem State.Prints.trans {s t u : State} (h : s.Prints t) (h' : t.Prints u) : s.Prints u := by
  obtain ⟨text, h⟩ := h
  obtain ⟨text', h'⟩ := h'
  exact ⟨text ++ text', by rw [h', h, String.append_assoc]⟩

theorem State.Loosens.prints {cut : Bool} {s s' : State} (h : s.Loosens cut s') : s.Prints s' := by
  obtain ⟨meter, -, rfl⟩ := h
  exact .refl s

theorem State.Change.prints {i : Instruction} {full : Prop} {s t : State} (h : s.Change i full t) :
    s.Prints t := by
  cases h with
  | print text => exact ⟨text ++ "\n", String.append_assoc ..⟩
  | _ => exact .refl s

namespace Action

variable {α β : Type} {cut : Bool} {p : Program} {i : Instruction}

theorem Built.prints {a : Action α} (ha : Built p i a) (s : State) : s.Prints (a.final s) :=
  ha.relates State.Change.prints State.Prints.trans s fun _ => trivial

/-- An action neither sees nor changes the meter. -/
def Unmetered (a : Action α) : Prop :=
  ∀ meter s, a.run (s.metered meter) = mapResult id (State.metered meter) (a.run s)

/-- The result of an action under looser limits: the same, or anything that prints more where the limits
stopped the action. -/
inductive Outlasts (cut : Bool) (a : Action α) (s s' : State) : Prop where
  | ok {x : α} {t t' : State} (hr : a.run s = .ok x t) (hr' : a.run s' = .ok x t')
      (h : t.Loosens cut t')
  | error {e : Fault.Cause} {t t' : State} (hr : a.run s = .error e t) (hr' : a.run s' = .error e t')
      (h : t.Loosens cut t')
  | stopped {e : LimitError} {t : State} (hc : cut = true) (hr : a.run s = .error (.limit e) t)
      (h : t.Prints (a.final s'))

theorem Unmetered.outlasts {a : Action α} (ha : Unmetered a) {s s' : State} (hs : s.Loosens cut s') :
    Outlasts cut a s s' := by
  obtain ⟨meter, hm, rfl⟩ := hs
  have hown : a.run s = mapResult id (State.metered s.meter) (a.run s) := ha s.meter s
  have hother := ha meter s
  cases hr : a.run s with
  | ok x t =>
    rw [hr] at hown hother
    injection hown with _ ht
    have hmeter : t.meter = s.meter := by rw [ht]; rfl
    exact .ok hr hother ⟨meter, hmeter ▸ hm, rfl⟩
  | error e t =>
    rw [hr] at hown hother
    injection hown with _ ht
    have hmeter : t.meter = s.meter := by rw [ht]; rfl
    exact .error hr hother ⟨meter, hmeter ▸ hm, rfl⟩

theorem Outlasts.bind {a : Action α} {f : α → Action β} {s s' : State} (ha : Outlasts cut a s s')
    (hf : ∀ x {t t'}, t.Loosens cut t' → Outlasts cut (f x) t t') (hb : ∀ x, Built p i (f x)) :
    Outlasts cut (a >>= f) s s' := by
  cases ha with
  | @ok x t t' hr hr' h =>
    have hrun : (a >>= f).run s = (f x).run t := by rw [EStateM.run_bind, hr]
    have hrun' : (a >>= f).run s' = (f x).run t' := by rw [EStateM.run_bind, hr']
    cases hf x h with
    | ok hx hx' h => exact .ok (hrun.trans hx) (hrun'.trans hx') h
    | error hx hx' h => exact .error (hrun.trans hx) (hrun'.trans hx') h
    | stopped hc hx h =>
      refine .stopped hc (hrun.trans hx) ?_
      rw [final_bind, hr']
      exact h
  | error hr hr' h =>
    exact .error (by rw [EStateM.run_bind, hr]) (by rw [EStateM.run_bind, hr']) h
  | stopped hc hr h =>
    -- the other action goes on, and what comes behind it prints more at most
    refine .stopped hc (by rw [EStateM.run_bind, hr]) ?_
    rw [final_bind]
    rw [final] at h
    cases hr' : a.run s' with
    | ok x t' =>
      rw [hr'] at h
      exact h.trans ((hb x).prints t')
    | error e t' =>
      rw [hr'] at h
      exact h

/-! ### Primitives -/

theorem unmetered_pop (opcode : Opcode) : Unmetered (pop opcode) := by
  intro meter s
  simp only [run_pop, State.metered]
  cases s.stack.pop? <;> rfl

theorem unmetered_popPair (opcode : Opcode) : Unmetered (popPair opcode) := by
  intro meter s
  simp only [run_popPair, State.metered]
  cases s.stack.popPair? <;> rfl

theorem unmetered_valueOf (h : Handle) : Unmetered (valueOf h) := by
  intro meter s
  simp only [run_valueOf, State.metered]
  cases s.heap.get? h <;> rfl

theorem unmetered_lookup (name : String) : Unmetered (lookup name) := by
  intro meter s
  simp only [run_lookup, State.metered]
  cases s.frame.bindings.lookup name <;> rfl

theorem unmetered_print (h : Handle) : Unmetered (print h) := by
  intro meter s
  simp only [run_print, State.metered]
  cases s.heap.render h <;> rfl

theorem unmetered_leave (count : String) : Unmetered (leave count) := by
  intro meter s
  simp only [run_leave, State.metered]
  cases Text.readCount? count with
  | none => rfl
  | some number =>
    cases s.callers.pop? with
    | none => rfl
    | some popped =>
      dsimp only
      split <;> rfl

section Metered

variable {s s' : State} (hs : s.Loosens cut s')
include hs

theorem outlasts_checkLength {length : Nat}
    (hp : ∀ s : State, s.Prints ((check (Meter.checkArrayLength length)).final s)) :
    Outlasts cut (check (Meter.checkArrayLength length)) s s' := by
  obtain ⟨meter, hm, rfl⟩ := hs
  have hr := run_check s (Meter.checkArrayLength length)
  have hr' := run_check (s.metered meter) (Meter.checkArrayLength length)
  rcases hm.checkArrayLength length with he | ⟨hc, e, he⟩
  · rw [show (s.metered meter).meter = meter from rfl, he] at hr'
    cases hl : s.meter.checkArrayLength length with
    | ok =>
      rw [hl] at hr hr'
      exact .ok hr hr' ⟨meter, hm, rfl⟩
    | error e =>
      rw [hl] at hr hr'
      exact .error hr hr' ⟨meter, hm, rfl⟩
  · rw [he] at hr
    exact .stopped hc hr (hp (s.metered meter))

theorem outlasts_allocate {value : Value} (hp : ∀ s : State, s.Prints ((allocate value).final s)) :
    Outlasts cut (allocate value) s s' := by
  obtain ⟨meter, hm, rfl⟩ := hs
  have hr := run_allocate s value
  have hr' := run_allocate (s.metered meter) value
  rcases hm.allocate with ⟨n, n', hn, hn', h⟩ | ⟨hc, e, he⟩
  · rw [hn] at hr
    rw [show (s.metered meter).meter = meter from rfl, hn'] at hr'
    dsimp only at hr hr'
    by_cases hf : s.heap.isFull
    · rw [if_pos hf] at hr
      rw [if_pos (show (s.metered meter).heap.isFull = true from hf)] at hr'
      exact .error hr hr' ⟨n', h, rfl⟩
    · rw [if_neg hf] at hr
      rw [if_neg (show ¬ (s.metered meter).heap.isFull = true from hf)] at hr'
      exact .ok hr hr' ⟨n', h, rfl⟩
  · rw [he] at hr
    exact .stopped hc hr (hp (s.metered meter))

theorem outlasts_enter {label : String} (hp : ∀ s : State, s.Prints ((enter p label).final s)) :
    Outlasts cut (enter p label) s s' := by
  obtain ⟨meter, hm, rfl⟩ := hs
  have hr := run_enter s p label
  have hr' := run_enter (s.metered meter) p label
  cases hl : p.labels.get? label with
  | none =>
    simp only [hl] at hr hr'
    exact .error hr hr' ⟨meter, hm, rfl⟩
  | some target =>
    simp only [hl] at hr hr'
    rcases hm.checkDepth s.depth with he | ⟨hc, e, he⟩
    · rw [show (s.metered meter).meter = meter from rfl,
        show (s.metered meter).depth = s.depth from rfl, he] at hr'
      cases hd : s.meter.checkDepth s.depth with
      | ok =>
        rw [hd] at hr hr'
        exact .ok hr hr' ⟨meter, hm, rfl⟩
      | error e =>
        rw [hd] at hr hr'
        exact .error hr hr' ⟨meter, hm, rfl⟩
    · rw [he] at hr
      exact .stopped hc hr (hp (s.metered meter))

end Metered

theorem Built.outlasts {a : Action α} (ha : Built p i a) {s s' : State} (hs : s.Loosens cut s') :
    Outlasts cut a s s' := by
  have hprints : ∀ {β : Type} {b : Action β}, Built p i b → ∀ t : State, t.Prints (b.final t) := Built.prints
  induction ha generalizing s s' with
  | pure | throw | push | bindName | store => exact Unmetered.outlasts (fun _ _ => rfl) hs
  | bind ha hf iha ihf => exact (iha hs).bind (fun x _ _ h => ihf x h) hf
  | pop opcode => exact (unmetered_pop opcode).outlasts hs
  | popPair opcode => exact (unmetered_popPair opcode).outlasts hs
  | checkLength length => exact outlasts_checkLength hs (hprints (.checkLength length))
  | allocate value => exact outlasts_allocate hs (hprints (.allocate value))
  | valueOf h => exact (unmetered_valueOf h).outlasts hs
  | lookup name => exact (unmetered_lookup name).outlasts hs
  | print h => exact (unmetered_print h).outlasts hs
  | enter label => exact outlasts_enter hs (hprints (.enter label))
  | leave => exact (unmetered_leave _).outlasts hs

end Action

/-! ## Turns -/

section Turns

variable {cut : Bool} {p : Program} {s s' : State}

theorem State.Loosens.afterInstruction (hs : s.Loosens cut s') (opcode : Opcode) :
    (s'.afterInstruction opcode).1 = (s.afterInstruction opcode).1 ∧
      (s.afterInstruction opcode).2.Loosens cut (s'.afterInstruction opcode).2 := by
  obtain ⟨meter, hm, rfl⟩ := hs
  have hcount : (if isCounted opcode then (s.metered meter).count else s.metered meter) =
      (if isCounted opcode then s.count else s).metered meter := by
    split <;> rfl
  have hmeter : (if isCounted opcode then s.count else s).meter = s.meter := by
    split <;> rfl
  simp only [State.afterInstruction, hcount]
  generalize (if isCounted opcode then s.count else s) = t at hmeter
  rw [← hmeter] at hm
  have hdue : (t.metered meter).isCollectionDue = t.isCollectionDue := by
    unfold isCollectionDue
    rw [show (t.metered meter).meter = meter from rfl, hm.interval]
    rfl
  rw [hdue]
  cases t.isCollectionDue with
  | true => exact ⟨rfl, meter.free t.collect.1, hm.free _, rfl⟩
  | false => exact ⟨rfl, meter, hm, rfl⟩

theorem Control.output_apply (control : Control) (s : State) : (control.apply s).output = s.output := by
  cases control <;> rfl

/-- A turn tells of its instruction first, and what the instruction printed stays. -/
theorem Program.turn_execute {i : Instruction} (hi : p.instructions[s.position]? = some i) :
    [Event.instruction s.position i.opcode s.stack.height s.depth] <+: (p.turn s).events ∧
      ((i.execute p).final s).Prints (p.turn s).state := by
  unfold turn Action.final
  simp only [hi]
  cases (i.execute p).run s with
  | error cause t => exact ⟨List.prefix_refl _, .refl t⟩
  | ok control t =>
    refine ⟨List.prefix_append [_] _, "", ?_⟩
    dsimp only
    rw [Control.output_apply, State.output_afterInstruction, String.append_empty]

theorem Program.prints_turn (p : Program) (s : State) : s.Prints (p.turn s).state :=
  p.turn_relates State.Change.prints State.Prints.trans .refl (fun s => .refl s) (fun s _ => .refl s) s

/-- A turn under looser limits: the same, or one that goes on where the limits stopped the other one. -/
inductive Turn.Outlasts (cut : Bool) (turn turn' : Turn) : Prop where
  | same (hn : turn'.ending = turn.ending) (he : turn'.events = turn.events)
      (hs : turn.state.Loosens cut turn'.state)
  | stopped {e : LimitError} {position : Option Nat} (hc : cut = true)
      (hn : turn.ending = some (.failed ⟨.limit e, position⟩)) (he : turn.events <+: turn'.events)
      (hs : turn.state.Prints turn'.state)

theorem State.Loosens.turn (hs : s.Loosens cut s') (p : Program) :
    (p.turn s).Outlasts cut (p.turn s') := by
  obtain ⟨hposition, hstack, hdepth⟩ : s'.position = s.position ∧ s'.stack = s.stack ∧
      s'.depth = s.depth := by
    obtain ⟨meter, -, rfl⟩ := hs
    exact ⟨rfl, rfl, rfl⟩
  cases hi : p.instructions[s.position]? with
  | none =>
    have hend : ∀ t : State, t.position = s.position → p.turn t = ⟨[], t, some .completed⟩ := by
      intro t ht
      rw [Program.turn, ht, hi]
    rw [hend s rfl, hend s' hposition]
    exact .same rfl rfl hs
  | some i =>
    have hi' : p.instructions[s'.position]? = some i := hposition ▸ hi
    have hgoes := Program.turn_execute hi'
    rw [hposition, hstack, hdepth] at hgoes
    cases (Action.built_execute p i).outlasts hs with
    | @ok control t t' hr hr' h =>
      have hdepth' : t'.depth = t.depth := by
        obtain ⟨meter, -, rfl⟩ := h
        rfl
      obtain ⟨hcollected, hafter⟩ := h.afterInstruction i.opcode
      simp only [Program.turn, hi, hi', hr, hr']
      refine .same rfl ?_ ?_
      · dsimp only
        rw [hposition, hstack, hdepth, hdepth', hcollected]
      · obtain ⟨meter, hm, he⟩ := hafter
        dsimp only
        rw [he]
        cases control <;> exact ⟨meter, hm, rfl⟩
    | error hr hr' h =>
      simp only [Program.turn, hi, hr, hr', hposition, hstack, hdepth]
      exact .same rfl rfl h
    | @stopped e t hc hr h =>
      have hturn : p.turn s = ⟨[.instruction s.position i.opcode s.stack.height s.depth], t,
          some (.failed ⟨.limit e, some s.position⟩)⟩ := by
        simp only [Program.turn, hi, hr]
      rw [hturn]
      exact .stopped hc rfl hgoes.1 (h.trans hgoes.2)

end Turns

/-! ## Runs -/

/-- What was told and printed in a run, a later one tells and prints first. -/
structure Run.Extends (run run' : Run (List Event)) : Prop where
  observed : run.observed <+: run'.observed
  output : run.state.Prints run'.state

theorem Run.Extends.trans {a b c : Run (List Event)} (h : a.Extends b) (h' : b.Extends c) :
    a.Extends c :=
  ⟨h.observed.trans h'.observed, h.output.trans h'.output⟩

theorem Run.extends_next (p : Program) (run : Run (List Event)) :
    run.Extends (run.next p Event.record) := by
  cases he : run.ending with
  | some ending =>
    rw [next_ended he]
    exact ⟨List.prefix_refl _, .refl _⟩
  | none =>
    rw [next_going he, foldl_record]
    exact ⟨List.prefix_append .., p.prints_turn run.state⟩

theorem Program.run_extends (p : Program) (meter : Meter) {m n : Nat} (hmn : m ≤ n) :
    (p.run meter m Event.record []).Extends (p.run meter n Event.record []) := by
  induction hmn with
  | refl => exact ⟨List.prefix_refl _, .refl _⟩
  | step _ ih =>
    rw [run_succ]
    exact ih.trans (Run.extends_next p _)

/-- A run under looser limits: the same, or a longer one where the limits stopped the other one. -/
inductive Run.Outlasts (cut : Bool) (run run' : Run (List Event)) : Prop where
  | same (hn : run'.ending = run.ending) (he : run'.observed = run.observed)
      (hs : run.state.Loosens cut run'.state)
  | stopped {e : LimitError} {position : Option Nat} (hc : cut = true)
      (hn : run.ending = some (.failed ⟨.limit e, position⟩)) (he : run.Extends run')

theorem Run.Outlasts.extends {cut : Bool} {run run' : Run (List Event)} (h : run.Outlasts cut run') :
    run.Extends run' := by
  cases h with
  | same hn he hs => exact ⟨he ▸ List.prefix_refl _, hs.prints⟩
  | stopped hc hn he => exact he

theorem Run.Outlasts.next {cut : Bool} {run run' : Run (List Event)} (h : run.Outlasts cut run')
    (p : Program) : (run.next p Event.record).Outlasts cut (run'.next p Event.record) := by
  cases h with
  | same hn he hs =>
    cases hending : run.ending with
    | some ending =>
      rw [next_ended hending, next_ended (hn.trans hending)]
      exact .same hn he hs
    | none =>
      rw [next_going hending, next_going (hn.trans hending), foldl_record, foldl_record, he]
      cases hs.turn p with
      | same hn he hs => exact .same hn (congrArg (run.observed ++ ·) he) hs
      | stopped hc hn he hs =>
        exact .stopped hc hn ⟨(List.prefix_append_right_inj _).2 he, hs⟩
  | stopped hc hn he =>
    rw [next_ended hn]
    exact .stopped hc hn (he.trans (extends_next p run'))

theorem Meter.Looser.run {cut : Bool} {m m' : Meter} (h : m.Looser cut m') (p : Program) (turns : Nat) :
    (p.run m turns Event.record []).Outlasts cut (p.run m' turns Event.record []) := by
  induction turns with
  | zero =>
    unfold Program.run
    cases p.entry? with
    | none => exact .same rfl rfl ⟨m', h, rfl⟩
    | some entry => exact .same rfl rfl ⟨m', h, rfl⟩
  | succ turns ih =>
    rw [Program.run_succ, Program.run_succ]
    exact ih.next p

/-- Two recorded runs that differ in nothing but their meters. -/
structure Run.Matches (run run' : Run (List Event)) : Prop where
  ending : run'.ending = run.ending
  observed : run'.observed = run.observed
  state : run'.state = run.state.metered run'.state.meter
  outcome : run'.outcome? = run.outcome?

/-- The run ended at the depth of calls or for want of memory. -/
def Run.IsStopped {σ : Type} (run : Run σ) : Prop :=
  ∃ fault, run.ending = some (.failed fault) ∧
    (fault.cause.kind = .recursionError ∨ fault.cause.kind = .memoryError)

theorem Run.Outlasts.matches {cut : Bool} {run run' : Run (List Event)} (h : run.Outlasts cut run')
    (hr : cut = true → ¬ run.IsStopped) :
    run.Matches run' ∧ run.state.meter.Looser cut run'.state.meter := by
  cases h with
  | same hn he hs =>
    obtain ⟨meter, hm, hs⟩ := hs
    have hmeter : run'.state.meter = meter := by rw [hs]; rfl
    refine ⟨⟨hn, he, hmeter ▸ hs, ?_⟩, hmeter ▸ hm⟩
    unfold outcome?
    rw [hn, hs]
    rfl
  | @stopped e position hc hn he =>
    refine absurd ⟨_, hn, ?_⟩ (hr hc)
    cases e with
    | depth => exact .inl rfl
    | allocation | arrayLength => exact .inr rfl

/-- Limits only cut runs short. A run that is not stopped at a depth of calls or for want of memory goes in
the same way under all limits that allow as much, with the same counts; any other one tells and prints the
beginning of what the run tells and prints under those limits. A run without a counting meter goes as one
under the standard limits. -/
theorem Program.run_limits (p : Program) (turns : Nat) :
    (∀ limits limits' : Limits, limits.Within limits' →
      let run := p.run (.ofLimits limits) turns Event.record []
      let run' := fun turns => p.run (.ofLimits limits') turns Event.record []
      (¬ run.IsStopped → run.Matches (run' turns) ∧
        (run' turns).state.meter.counts? = run.state.meter.counts?) ∧
      ∀ turns' ≥ turns, run.Extends (run' turns')) ∧
    (p.run .plain turns Event.record []).Matches (p.run (.ofLimits .standard) turns Event.record []) := by
  refine ⟨fun limits limits' h => ?_, ?_⟩
  · have houtlasts := (Meter.Looser.within h 0 0).run p turns
    refine ⟨fun hr => ?_, fun turns' hle => houtlasts.extends.trans (p.run_extends _ hle)⟩
    obtain ⟨hmatches, hm⟩ := houtlasts.matches fun _ => hr
    exact ⟨hmatches, hm.counts?⟩
  · exact (((Meter.Looser.standard 0 0).run p turns).matches nofun).1

/-- A program that prints and calls itself, with two frames and with five. -/
theorem Program.run_limits_recursion :
    let p : Program := ⟨#[⟨.push, ["7"]⟩, ⟨.print, []⟩, ⟨.call, ["main"]⟩], .ofList [("main", 0)]⟩
    let limits : Limits := ⟨some 3, none, some 2, none⟩
    let limits' : Limits := ⟨none, none, some 5, none⟩
    limits.Within limits' ∧
    ¬ (p.run (.ofLimits limits) 5 Event.record []).IsStopped ∧
    (p.run (.ofLimits limits) 5 Event.record []).Matches
      (p.run (.ofLimits limits') 5 Event.record []) ∧
    (p.run (.ofLimits limits) 6 Event.record []).IsStopped ∧
    (p.run (.ofLimits limits) 6 Event.record []).Extends (p.run (.ofLimits limits') 9 Event.record []) := by
  intro p limits limits'
  have hwithin : limits.Within limits' := by
    refine ⟨nofun, fun n' hn' => ⟨2, rfl, ?_⟩, nofun, rfl⟩
    cases hn'
    decide
  have hgoing : (p.run (.ofLimits limits) 5 Event.record []).ending = none := by cbv
  have hended : (p.run (.ofLimits limits) 6 Event.record []).ending =
      some (.failed ⟨.limit (.depth 2 3), some 2⟩) := by cbv
  have hrun : ¬ (p.run (.ofLimits limits) 5 Event.record []).IsStopped := by
    rintro ⟨fault, hfault, -⟩
    cases hgoing.symm.trans hfault
  exact ⟨hwithin, hrun, (((run_limits p 5).1 limits limits' hwithin).1 hrun).1, ⟨_, hended, .inl rfl⟩,
    ((run_limits p 6).1 limits limits' hwithin).2 9 (by decide)⟩

end CMinusMinus
