import CMinusMinus.Machine.Run
import CMinusMinus.Proofs.Machine.Primitives

/-!
# Runs, turn by turn

A run of one more turn is the shorter run and the turn that comes next, unless the shorter one has ended. So
what one turn preserves holds of runs by induction on their length.
-/

namespace CMinusMinus

/-- Keeps the events of a run in order. -/
def Event.record (seen : List Event) (event : Event) : List Event :=
  seen ++ [event]

theorem foldl_record (seen events : List Event) : events.foldl Event.record seen = seen ++ events := by
  induction events generalizing seen with
  | nil => simp
  | cons event events ih => simp [Event.record, ih]

/-! ## After an instruction -/

namespace State

theorem afterInstruction_relates {R : State → State → Prop} (hr : ∀ s, R s s)
    (ht : ∀ {s t u}, R s t → R t u → R s u) (hcount : ∀ s : State, R s s.count)
    (hcollect : ∀ s : State, R s s.collect.2) (s : State) (opcode : Opcode) :
    R s (s.afterInstruction opcode).2 := by
  have hcounted : R s (if isCounted opcode then s.count else s) := by
    split
    · exact hcount s
    · exact hr s
  rw [afterInstruction]
  generalize (if isCounted opcode then s.count else s) = t at hcounted
  dsimp only
  split
  · exact ht hcounted (hcollect t)
  · exact hcounted

/-- What counting and collecting leave as it is, is the same after an instruction. -/
theorem afterInstruction_keeps {β : Type} (f : State → β) (hcount : ∀ s : State, f s.count = f s)
    (hcollect : ∀ s : State, f s.collect.2 = f s) (s : State) (opcode : Opcode) :
    f (s.afterInstruction opcode).2 = f s :=
  afterInstruction_relates (R := fun s t => f t = f s) (fun _ => rfl) (fun h h' => h'.trans h) hcount
    hcollect s opcode

/-- Nothing is told after an instruction but a collection. -/
theorem events_afterInstruction {s : State} {opcode : Opcode} {event : Event}
    (h : event ∈ (s.afterInstruction opcode).1) : ∃ freed live, event = .collection freed live := by
  unfold State.afterInstruction at h
  generalize (if isCounted opcode then s.count else s) = t at h
  dsimp only at h
  split at h
  · exact ⟨_, _, List.mem_singleton.1 h⟩
  · cases h

theorem stack_afterInstruction (s : State) (opcode : Opcode) :
    (s.afterInstruction opcode).2.stack = s.stack :=
  afterInstruction_keeps stack (fun _ => rfl) (fun _ => rfl) s opcode

theorem output_afterInstruction (s : State) (opcode : Opcode) :
    (s.afterInstruction opcode).2.output = s.output :=
  afterInstruction_keeps output (fun _ => rfl) (fun _ => rfl) s opcode

end State

/-! ## The halves of a turn -/

/-- The state that the next instruction leaves, before garbage is collected. -/
def Program.executed (p : Program) (s : State) : State :=
  match p.instructions[s.position]? with
  | some i => (i.execute p).final s
  | none => s

/-- A turn ends the run where there is no instruction, stops at an instruction that fails, and goes on after any
other one where its control leads. -/
theorem Program.turn_cases (p : Program) (s : State) :
    p.instructions[s.position]? = none ∧ p.turn s = ⟨[], s, some .completed⟩ ∨
    ∃ i, p.instructions[s.position]? = some i ∧
      let first := Event.instruction s.position i.opcode s.stack.height s.depth
      let t := p.executed s
      (∃ cause, p.turn s = ⟨[first], t, some (.failed ⟨cause, some s.position⟩)⟩) ∨
      ∃ control : Control, p.turn s =
        ⟨first :: (control.events t.depth ++ (t.afterInstruction i.opcode).1),
          control.apply (t.afterInstruction i.opcode).2, control.ending?⟩ := by
  unfold turn executed Action.final
  cases hi : p.instructions[s.position]? with
  | none => exact .inl ⟨rfl, rfl⟩
  | some i =>
    refine .inr ⟨i, rfl, ?_⟩
    dsimp only
    cases (i.execute p).run s with
    | error cause t => exact .inl ⟨cause, rfl⟩
    | ok control t => exact .inr ⟨control, rfl⟩

section Halves

variable {R : State → State → Prop} {p : Program} {s : State}

/-- What holds of the changes that the next instruction makes, and of one after another, holds of its
execution. -/
theorem Program.executed_relates {full : Prop} (hr : ∀ s, R s s)
    (hc : ∀ {i}, p.instructions[s.position]? = some i → ∀ {t u}, t.Change i full u → R t u)
    (ht : ∀ {s t u}, R s t → R t u → R s u)
    (hs : ∀ i, p.instructions[s.position]? = some i → (i.execute p).Overflows s → full) :
    R s (p.executed s) := by
  unfold executed
  cases hi : p.instructions[s.position]? with
  | none => exact hr s
  | some i => exact (Action.built_execute p i).relates (hc hi) ht s (hs i hi)

/-- What holds of counting and collecting and of going elsewhere, and of one after another, holds of what
comes after the execution of an instruction. -/
theorem Program.turn_relates_executed (hcount : ∀ s : State, R s s.count)
    (ht : ∀ {s t u}, R s t → R t u → R s u) (hcollect : ∀ s : State, R s s.collect.2)
    (hplace : ∀ (s : State) position, R s { s with position }) : R (p.executed s) (p.turn s).state := by
  have hr : ∀ s, R s s := fun s => hplace s s.position
  unfold executed turn Action.final
  cases p.instructions[s.position]? with
  | none => exact hr s
  | some i =>
    dsimp only
    cases (i.execute p).run s with
    | error cause t => exact hr t
    | ok control t =>
      refine ht (State.afterInstruction_relates hr ht hcount hcollect t i.opcode) ?_
      cases control with
      | halt => exact hr _
      | _ => exact hplace _ _

/-- What holds of changes, of counting and collecting and of going elsewhere, and of one after another,
holds of turns. -/
theorem Program.turn_relates (hc : ∀ {i s t}, s.Change i True t → R s t)
    (ht : ∀ {s t u}, R s t → R t u → R s u) (hcount : ∀ s : State, R s s.count)
    (hcollect : ∀ s : State, R s s.collect.2) (hplace : ∀ (s : State) position, R s { s with position })
    (p : Program) (s : State) : R s (p.turn s).state :=
  ht (executed_relates (fun s => hplace s s.position) (fun _ => hc) ht fun _ _ _ => trivial)
    (turn_relates_executed hcount ht hcollect hplace)

end Halves

/-! ## One turn more -/

section Next

variable {σ : Type} {p : Program} {observe : σ → Event → σ}

/-- The run after another turn, if it has not ended. -/
def Run.next (p : Program) (observe : σ → Event → σ) (run : Run σ) : Run σ :=
  match run.ending with
  | some _ => run
  | none =>
    let turn := p.turn run.state
    ⟨turn.ending, turn.state, turn.events.foldl observe run.observed⟩

theorem Run.next_ended {run : Run σ} {ending : Ending} (h : run.ending = some ending) :
    run.next p observe = run := by
  rw [next, h]

theorem Run.next_going {run : Run σ} (h : run.ending = none) : run.next p observe =
    ⟨(p.turn run.state).ending, (p.turn run.state).state,
      (p.turn run.state).events.foldl observe run.observed⟩ := by
  rw [next, h]

theorem Program.runFrom_succ (turns : Nat) (s : State) (start : σ) :
    p.runFrom observe (turns + 1) s start = (p.runFrom observe turns s start).next p observe := by
  induction turns generalizing s start with
  | zero =>
    rw [runFrom, Run.next_going rfl]
    simp only [runFrom]
    cases (p.turn s).ending <;> rfl
  | succ turns ih =>
    rw [runFrom]
    conv => rhs; rw [runFrom]
    cases he : (p.turn s).ending with
    | some ending => exact (Run.next_ended rfl).symm
    | none => exact ih _ _

theorem Program.run_succ (meter : Meter) (turns : Nat) (start : σ) :
    p.run meter (turns + 1) observe start = (p.run meter turns observe start).next p observe := by
  unfold run
  cases p.entry? with
  | none => rfl
  | some entry => exact runFrom_succ turns _ start

end Next

theorem Program.state_run_zero {σ : Type} (p : Program) (meter : Meter) (observe : σ → Event → σ)
    (start : σ) : ∃ entry, (p.run meter 0 observe start).state = State.initial entry p.size meter := by
  unfold run
  cases p.entry? with
  | none => exact ⟨0, rfl⟩
  | some entry => exact ⟨entry, rfl⟩

/-- What holds at the start and is preserved by turns holds in every state of a run. -/
theorem Program.run_preserves {σ : Type} {P : State → Prop} {p : Program} {meter : Meter}
    (hstart : ∀ entry, P (State.initial entry p.size meter)) (hturn : ∀ s, P s → P (p.turn s).state)
    (turns : Nat) (observe : σ → Event → σ) (start : σ) : P (p.run meter turns observe start).state := by
  induction turns with
  | zero =>
    obtain ⟨entry, hentry⟩ := p.state_run_zero meter observe start
    rw [hentry]
    exact hstart entry
  | succ turns ih =>
    rw [run_succ]
    cases hn : (p.run meter turns observe start).ending with
    | some ending =>
      rw [Run.next_ended hn]
      exact ih
    | none =>
      rw [Run.next_going hn]
      exact hturn _ ih

/-- What an observer makes of a run is what it makes of the events in order. -/
theorem Program.run_observe {σ : Type} (p : Program) (meter : Meter) (turns : Nat)
    (observe : σ → Event → σ) (start : σ) :
    let run := p.run meter turns Event.record []
    p.run meter turns observe start = ⟨run.ending, run.state, run.observed.foldl observe start⟩ := by
  induction turns with
  | zero =>
    simp only [run]
    cases p.entry? <;> rfl
  | succ turns ih =>
    simp only [run_succ] at ih ⊢
    rw [ih]
    cases hn : (p.run meter turns Event.record []).ending with
    | some ending => rw [Run.next_ended hn, Run.next_ended rfl, hn]
    | none => rw [Run.next_going hn, Run.next_going rfl, foldl_record, List.foldl_append]

/-! ## Endings -/

/-- A run that has ended stays as it is. -/
theorem Program.run_eq_of_ended {σ : Type} {p : Program} {meter : Meter} {observe : σ → Event → σ}
    {start : σ} {m n : Nat} (hmn : m ≤ n) {ending : Ending}
    (hm : (p.run meter m observe start).ending = some ending) :
    p.run meter n observe start = p.run meter m observe start := by
  induction hmn with
  | refl => rfl
  | step _ ih => rw [run_succ, ih, Run.next_ended hm]

theorem Program.run_ended {σ : Type} {p : Program} {meter : Meter} {observe : σ → Event → σ}
    {start : σ} {m n : Nat} (hmn : m ≤ n) {ending : Ending}
    (hm : (p.run meter m observe start).ending = some ending) :
    (p.run meter n observe start).ending = some ending := by
  rw [run_eq_of_ended hmn hm, hm]

/-- A run has one ending. -/
theorem Program.ending_unique {σ : Type} {p : Program} {meter : Meter} {observe : σ → Event → σ}
    {start : σ} {m n : Nat} {a b : Ending} (ha : (p.run meter m observe start).ending = some a)
    (hb : (p.run meter n observe start).ending = some b) : a = b := by
  rcases Nat.le_total m n with hle | hle
  · rw [run_ended hle ha] at hb
    exact Option.some.inj hb
  · rw [run_ended hle hb] at ha
    exact (Option.some.inj ha).symm

/-! ## Faults -/

/-- A turn fails at an instruction of the program, for a cause that this instruction admits. -/
theorem Program.turn_failed {p : Program} {s : State} {fault : Fault}
    (h : (p.turn s).ending = some (.failed fault)) :
    ∃ i ∈ p.instructions, i.Admits p fault.cause := by
  unfold turn at h
  cases hi : p.instructions[s.position]? with
  | none =>
    rw [hi] at h
    cases h
  | some i =>
    rw [hi] at h
    dsimp only at h
    cases hrun : (i.execute p).run s with
    | error cause t =>
      rw [hrun] at h
      cases h
      exact ⟨i, Array.mem_of_getElem? hi, (Action.built_execute p i).admits hrun⟩
    | ok control t =>
      rw [hrun] at h
      cases control <;> cases h

/-- A run fails at an instruction of the program, unless there is no entry. -/
theorem Program.run_failed {σ : Type} {p : Program} {meter : Meter} {turns : Nat}
    {observe : σ → Event → σ} {start : σ} {fault : Fault} (hentry : p.entry?.isSome = true)
    (h : (p.run meter turns observe start).ending = some (.failed fault)) :
    ∃ i ∈ p.instructions, i.Admits p fault.cause := by
  induction turns with
  | zero =>
    obtain ⟨entry, he⟩ := Option.isSome_iff_exists.1 hentry
    simp only [run, he, runFrom] at h
    cases h
  | succ turns ih =>
    rw [run_succ] at h
    cases hn : (p.run meter turns observe start).ending with
    | some ending =>
      rw [Run.next_ended hn] at h
      exact ih h
    | none =>
      rw [Run.next_going hn] at h
      exact turn_failed h

end CMinusMinus
