import CMinusMinus.Proofs.Machine.Resolution
import CMinusMinus.Proofs.Source.Conditions
import CMinusMinus.Proofs.Trace.Profile

/-!
# The schedule of collections

A counter is raised behind every counted instruction, and where it reaches the interval there is a collection
that sets it back. So the counted instructions of a run are the collections times the interval and what the
counter shows. The counter stays below the interval behind instructions of any kind, which makes the number of
collections a quotient and the counter the remainder.
-/

namespace CMinusMinus

/-! ## Intervals -/

namespace Meter

theorem interval_free (meter : Meter) (count : Nat) : (meter.free count).interval = meter.interval := by
  cases meter <;> rfl

theorem interval_allocate {meter meter' : Meter} (h : meter.allocate = .ok meter') :
    meter'.interval = meter.interval := by
  rcases allocate_eq_ok h with ⟨rfl, rfl⟩ | ⟨limits, allocated, freed, rfl, rfl⟩ <;> rfl

end Meter

/-! ## Behind an instruction -/

namespace State

/-- How many counted instructions there were, if each collection came with the last one of an interval. -/
def clock (s : State) : Nat :=
  s.collections * s.meter.interval + s.sinceCollection

/-- From one state to a later one `n` counted instructions are completed, and what is told of are the
collections between them. -/
structure Ticks (n : Nat) (s : State) (events : List Event) (t : State) : Prop where
  interval : t.meter.interval = s.meter.interval
  early : t.sinceCollection < t.meter.interval
  clock : t.clock = s.clock + n
  told : t.collections = s.collections + (events.filterMap Event.freed?).length

variable {s t : State}

theorem ticks_zero (h : s.sinceCollection < s.meter.interval) : s.Ticks 0 [] s :=
  ⟨rfl, h, rfl, rfl⟩

/-- The collection of a state whose counter has reached the interval. -/
theorem ticks_collect (h : s.sinceCollection + 1 = s.meter.interval) :
    s.Ticks 1 [.collection s.count.collect.1 s.count.collect.2.heap.live] s.count.collect.2 := by
  have hinterval : s.count.collect.2.meter.interval = s.meter.interval := Meter.interval_free ..
  refine ⟨hinterval, ?_, ?_, rfl⟩
  · rw [hinterval, ← h]
    exact Nat.succ_pos _
  · show (s.collections + 1) * s.count.collect.2.meter.interval + 0 = s.collections * s.meter.interval +
      s.sinceCollection + 1
    rw [hinterval, Nat.add_assoc, h, Nat.succ_mul, Nat.add_zero]

/-- Behind an instruction the clock has moved on if the instruction counts, and only then there may be a
collection. -/
theorem ticks_afterInstruction (h : s.sinceCollection < s.meter.interval) (opcode : Opcode) :
    s.Ticks (if isCounted opcode then 1 else 0) (s.afterInstruction opcode).1 (s.afterInstruction opcode).2 ∧
      ((s.afterInstruction opcode).1 ≠ [] → isCounted opcode = true) := by
  unfold afterInstruction
  cases hcounted : isCounted opcode with
  | false =>
    have hdue : s.isCollectionDue = false := by simpa [isCollectionDue] using h
    simpa [hdue] using ticks_zero h
  | true =>
    simp only [if_true, implies_true, and_true]
    by_cases hnext : s.sinceCollection + 1 = s.meter.interval
    · have hdue : s.count.isCollectionDue = true := by
        simpa [isCollectionDue, count] using hnext.ge
      rw [if_pos hdue]
      exact ticks_collect hnext
    · have hlt : s.sinceCollection + 1 < s.meter.interval := by omega
      have hdue : ¬ s.count.isCollectionDue = true := by
        simpa [isCollectionDue, count] using hlt
      rw [if_neg hdue]
      exact ⟨rfl, hlt, rfl, rfl⟩

end State

/-! ## Turns -/

/-- The operation of the instruction that a turn completes, if there is one and it does not fail. -/
def Turn.completed (turn : Turn) : List Opcode :=
  match turn.ending with
  | some (.failed _) => []
  | _ => turn.events.filterMap Event.opcode?

section Turns

variable {p : Program} {s : State}

/-- An instruction leaves everything alone that the schedule depends on. -/
theorem Program.schedule_executed (p : Program) (s : State) :
    (p.executed s).meter.interval = s.meter.interval ∧
      (p.executed s).sinceCollection = s.sinceCollection ∧ (p.executed s).collections = s.collections := by
  refine executed_relates (R := fun s t => t.meter.interval = s.meter.interval ∧
    t.sinceCollection = s.sinceCollection ∧ t.collections = s.collections)
    (fun _ => ⟨rfl, rfl, rfl⟩) (fun _ _ _ (h : State.Change _ True _ _) => ?_)
    (fun h h' => ⟨h'.1.trans h.1, h'.2.1.trans h.2.1, h'.2.2.trans h.2.2⟩) (fun _ _ _ => trivial)
  cases h with
  | allocate hm => exact ⟨Meter.interval_allocate hm, rfl, rfl⟩
  | full hm => exact ⟨Meter.interval_allocate hm, rfl, rfl⟩
  | _ => exact ⟨rfl, rfl, rfl⟩

theorem Program.early_executed (p : Program) (h : s.sinceCollection < s.meter.interval) :
    (p.executed s).sinceCollection < (p.executed s).meter.interval := by
  obtain ⟨hinterval, hsince, -⟩ := p.schedule_executed s
  rwa [hinterval, hsince]

theorem Control.opcodes_events (control : Control) (depth : Nat) :
    (control.events depth).filterMap Event.opcode? = [] := by
  cases control <;> rfl

theorem State.opcodes_afterInstruction (s : State) (opcode : Opcode) :
    (s.afterInstruction opcode).1.filterMap Event.opcode? = [] := by
  rw [List.filterMap_eq_nil_iff]
  intro event he
  obtain ⟨freed, live, rfl⟩ := events_afterInstruction he
  rfl

/-- A turn that completes an instruction tells of its operation. -/
theorem Turn.completed_control {control : Control} {i : Instruction} {s t : State} {depth : Nat}
    {collected : List Event} (hcollected : collected.filterMap Event.opcode? = []) :
    Turn.completed ⟨.instruction s.position i.opcode s.stack.height s.depth ::
      (control.events depth ++ collected), t, control.ending?⟩ = [i.opcode] := by
  have hevents : (Event.instruction s.position i.opcode s.stack.height s.depth ::
      (control.events depth ++ collected)).filterMap Event.opcode? = [i.opcode] := by
    rw [List.filterMap_cons, List.filterMap_append, control.opcodes_events, hcollected]
    rfl
  cases control <;> exact hevents

theorem Turn.countP_completed (opcode : Opcode) :
    [opcode].countP State.isCounted = if State.isCounted opcode then 1 else 0 := by
  simp [List.countP_cons]

/-- A turn moves the clock on if it completes an instruction that counts. -/
theorem Program.ticks_turn (p : Program) (h : s.sinceCollection < s.meter.interval) :
    s.Ticks ((p.turn s).completed.countP State.isCounted) (p.turn s).events (p.turn s).state := by
  obtain ⟨hinterval, hsince, hcollections⟩ := p.schedule_executed s
  have hearly := p.early_executed h
  have hclock : (p.executed s).clock = s.clock := by
    rw [State.clock, State.clock, hinterval, hsince, hcollections]
  rcases p.turn_cases s with ⟨-, hturn⟩ | ⟨i, -, ⟨cause, hturn⟩ | ⟨control, hturn⟩⟩
  · rw [hturn]
    exact State.ticks_zero h
  · rw [hturn]
    exact ⟨hinterval, hearly, hclock, hcollections⟩
  · have hticks := (State.ticks_afterInstruction hearly i.opcode).1
    rw [hturn, Turn.completed_control (State.opcodes_afterInstruction ..), Turn.countP_completed]
    have htold := hticks.told
    rw [hcollections] at htold
    have happly : ∀ t : State, (control.apply t).meter = t.meter ∧
        (control.apply t).sinceCollection = t.sinceCollection ∧
        (control.apply t).collections = t.collections := by
      cases control <;> exact fun _ => ⟨rfl, rfl, rfl⟩
    obtain ⟨hmeter, hsince', hcollections'⟩ := happly ((p.executed s).afterInstruction i.opcode).2
    refine ⟨?_, ?_, ?_, ?_⟩
    · rw [hmeter, hticks.interval, hinterval]
    · rw [hmeter, hsince']
      exact hticks.early
    · rw [State.clock, hmeter, hsince', hcollections', ← hclock]
      exact hticks.clock
    · rw [hcollections', htold, List.filterMap_cons, List.filterMap_append, control.freed_events]
      rfl

/-- A collection is the last thing that a turn tells of, and the turn has completed an instruction that
counts. -/
structure Turn.EndsCollecting (turn : Turn) (freed live : Nat) : Prop where
  last : ∃ before, turn.events = before ++ [.collection freed live] ∧ before.filterMap Event.freed? = []
  behind : ∃ opcode, turn.completed = [opcode] ∧ State.isCounted opcode = true

theorem Program.endsCollecting (h : s.sinceCollection < s.meter.interval) {freed live : Nat}
    (hevent : .collection freed live ∈ (p.turn s).events) : (p.turn s).EndsCollecting freed live := by
  obtain ⟨i, control, -, -, hcollect, hturn⟩ := turn_collects hevent
  have hcounted := (State.ticks_afterInstruction (p.early_executed h) i.opcode).2
  rw [hcollect] at hcounted
  rw [hturn]
  refine ⟨⟨_ :: control.events (p.executed s).depth, rfl, ?_⟩, i.opcode, Turn.completed_control rfl,
    hcounted (List.cons_ne_nil _ _)⟩
  rw [List.filterMap_cons, control.freed_events]
  rfl

end Turns

/-! ## Runs -/

/-- The operations of the instructions that a recorded run has completed: all that it was told of, but for the
last one if that failed. -/
def Run.completed (run : Run (List Event)) : List Opcode :=
  match run.ending with
  | some (.failed _) => (run.observed.filterMap Event.opcode?).dropLast
  | _ => run.observed.filterMap Event.opcode?

/-- The collections of a run stand on schedule. -/
structure Run.Punctual (run : Run (List Event)) (interval : Nat) : Prop where
  kept : run.state.meter.interval = interval
  early : run.state.sinceCollection < interval
  clock : run.state.clock = run.completed.countP State.isCounted
  told : run.state.collections = (run.observed.filterMap Event.freed?).length

theorem Run.completed_next {run : Run (List Event)} (he : run.ending = none) (p : Program) :
    (run.next p Event.record).completed = run.completed ++ (p.turn run.state).completed := by
  have hcompleted : run.completed = run.observed.filterMap Event.opcode? := by rw [completed, he]
  rw [next_going he, foldl_record, hcompleted]
  rcases p.turn_cases run.state with ⟨-, hturn⟩ | ⟨i, -, ⟨cause, hturn⟩ | ⟨control, hturn⟩⟩
  · rw [hturn]
    simp [completed, Turn.completed]
  · rw [hturn]
    simp [completed, Turn.completed, Event.opcode?]
  · rw [hturn]
    cases control <;> exact List.filterMap_append

theorem Run.Punctual.next {run : Run (List Event)} {interval : Nat} (h : run.Punctual interval) (p : Program) :
    (run.next p Event.record).Punctual interval := by
  cases he : run.ending with
  | some ending => rwa [next_ended he]
  | none =>
    have hticks := p.ticks_turn (h.early.trans_eq h.kept.symm)
    have hcompleted := completed_next he p
    constructor
    · rw [next_going he]
      exact hticks.interval.trans h.kept
    · rw [next_going he]
      exact hticks.early.trans_eq (hticks.interval.trans h.kept)
    · rw [hcompleted, List.countP_append, ← h.clock, next_going he]
      exact hticks.clock
    · rw [next_going he, foldl_record, List.filterMap_append, List.length_append, ← h.told]
      exact hticks.told

theorem Program.run_punctual (p : Program) (meter : Meter) (hpos : 0 < meter.interval) (turns : Nat) :
    (p.run meter turns Event.record []).Punctual meter.interval := by
  induction turns with
  | zero =>
    unfold run
    cases p.entry? <;> exact ⟨rfl, hpos, Nat.zero_mul _, rfl⟩
  | succ turns ih =>
    rw [run_succ]
    exact ih.next p

/-- The clock of a run is a quotient, which is the number of collections, and a remainder. -/
theorem Run.Punctual.collections_eq {run : Run (List Event)} {interval : Nat} (h : run.Punctual interval) :
    run.state.collections = run.completed.countP State.isCounted / interval := by
  have hclock := h.clock
  have hearly := h.early
  rw [State.clock, h.kept] at hclock
  refine ((Nat.div_mod_unique (by omega)).2 ⟨?_, hearly⟩).1.symm
  rw [← hclock, Nat.mul_comm, Nat.add_comm]

/-- What a state leaves behind says how many collections there were. -/
theorem State.collections_outcome {s : State} {outcome : Outcome} (h : s.outcome = .ok outcome) :
    outcome.stats.collections = s.collections := by
  obtain ⟨stack, -, h⟩ := bind_eq_ok (mapError_eq_ok h)
  obtain ⟨globals, -, h⟩ := bind_eq_ok h
  cases h
  rfl

/-- Collections are made exactly on schedule: after `n` completed instructions that push, pop or return there
were as many as the interval goes into `n`, each right behind such an instruction. The counter of these
instructions stays below the interval, so raising it never makes it wrap around. What a completed run leaves
behind and every observer of the run tell of that many collections. -/
theorem Program.collections_scheduled (p : Program) (meter : Meter) (g : Nat)
    (hg : meter.interval = max g 1) (turns : Nat) :
    let run := p.run meter turns Event.record []
    let scheduled := run.completed.countP State.isCounted / max g 1
    let recording := (p.run meter turns Recording.observe (.start none)).observed
    run.state.collections = scheduled ∧
    run.state.sinceCollection < max g 1 ∧
    (g < Text.countBound → ∀ s ∈ [run.state, p.executed run.state],
      (s.sinceCollection + 1) % Text.countBound = s.count.sinceCollection) ∧
    (∀ freed live, .collection freed live ∈ (p.turn run.state).events →
      (p.turn run.state).EndsCollecting freed live) ∧
    (run.ending = some .completed → ∃ outcome, run.outcome? = some (.ok outcome) ∧
      outcome.stats.collections = scheduled) ∧
    recording.events.toList.countP (·.freed?.isSome) = scheduled ∧
    (p.run meter turns Profile.observe .start).observed.collections = scheduled ∧
    (p.run meter turns Listing.observe (.start none)).observed.text =
      Listing.lines recording.events.toList := by
  intro run scheduled recording
  have hpunctual : run.Punctual (max g 1) := hg ▸ p.run_punctual meter (hg ▸ by omega) turns
  have hcollections : run.state.collections = scheduled := hpunctual.collections_eq
  have hearly := hpunctual.early
  have hrecording : recording.events.toList = run.observed := p.run_recording meter turns
  have htold : (run.observed.filterMap Event.freed?).length = scheduled :=
    hpunctual.told.symm.trans hcollections
  refine ⟨hcollections, hearly, fun hbound s hs => ?_, fun freed live hevent => ?_, fun hended => ?_, ?_, ?_, ?_⟩
  · have hsince : s.sinceCollection = run.state.sinceCollection := by
      rcases List.mem_cons.1 hs with rfl | hs
      · rfl
      · rw [List.mem_singleton.1 hs]
        exact (p.schedule_executed _).2.1
    refine Nat.mod_eq_of_lt ?_
    have : 1 < Text.countBound := by decide
    omega
  · exact endsCollecting (hearly.trans_eq hpunctual.kept.symm) hevent
  · obtain ⟨-, -, outcome, houtcome⟩ := p.run_intact meter turns Event.record []
    refine ⟨outcome, ?_, (State.collections_outcome houtcome).trans hcollections⟩
    rw [Run.outcome?, hended]
    exact congrArg some houtcome
  · rw [hrecording, ← List.length_filterMap_eq_countP, htold]
  · rw [(p.run_profile meter turns).collections, htold]
  · rw [hrecording, run_observe]
    exact Listing.unlimited_eq _

/-- Two values are pushed, one is popped and the program returns: with an interval of two there are two
collections, and with one of zero four. -/
theorem Program.collections_scheduled_pop :
    let p : Program := ⟨#[⟨.push, ["1"]⟩, ⟨.push, ["2"]⟩, ⟨.pop, []⟩, ⟨.ret, ["0"]⟩], .ofList [("main", 0)]⟩
    let meter (g : Nat) : Meter := .ofLimits ⟨none, some g, none, none⟩
    (meter 2).interval = max 2 1 ∧ (meter 0).interval = max 0 1 ∧
    (p.run (meter 2) 4 Event.record []).completed.countP State.isCounted = 4 ∧
    (p.run (meter 2) 4 Event.record []).state.collections = 2 ∧
    (p.run (meter 0) 4 Event.record []).state.collections = 4 := by
  intro p meter
  have hcompleted : (p.run (meter 2) 4 Event.record []).completed.countP State.isCounted = 4 := by cbv
  have hcompleted' : (p.run (meter 0) 4 Event.record []).completed.countP State.isCounted = 4 := by cbv
  refine ⟨rfl, rfl, hcompleted, ?_, ?_⟩
  · rw [(collections_scheduled p (meter 2) 2 rfl 4).1, hcompleted]
    rfl
  · rw [(collections_scheduled p (meter 0) 0 rfl 4).1, hcompleted']
    rfl

end CMinusMinus
