import CMinusMinus.Proofs.Ideal.Lockstep
import Mathlib

/-!
# Intervals of collections

Runs that differ in nothing but the interval of their collections have one picture, so they cannot be told
apart by anything but the collections: they print the same, do the same steps, allocate as often and end in
the same way. Only the events of collections and the statistics of the heap differ.
-/

namespace CMinusMinus

/-! ## Steps -/

/-- Whether an event is a step of the program; a collection is none. -/
def Event.isStep : Event → Bool
  | .collection _ _ => false
  | _ => true

theorem steps_control (control : Control) (depth : Nat) :
    (control.events depth).filter Event.isStep = control.events depth := by
  cases control <;> rfl

theorem steps_afterInstruction (s : State) (opcode : Opcode) :
    (s.afterInstruction opcode).1.filter Event.isStep = [] := by
  unfold State.afterInstruction
  generalize (if State.isCounted opcode then s.count else s) = u
  dsimp only
  split <;> rfl

/-- What an observer is told of a turn of the machine without a heap. -/
def Ideal.steps (p : Program) (t : Ideal.State) : List Event :=
  match p.instructions[t.position]? with
  | none => []
  | some i =>
    let first := Event.instruction t.position i.opcode t.stack.length (t.callers.length + 1)
    match (Ideal.execute i p).run t with
    | .error _ _ => [first]
    | .ok control t' => first :: control.events (t'.callers.length + 1)

section Turns

variable {address : Nat → Nat} {s : State} {t : Ideal.State}

theorem Picture.height_eq {limited : Bool} (hp : Picture limited address s t) :
    t.stack.length = s.stack.height := by
  rw [hp.stack, List.length_map, s.stack.height_eq]

theorem Picture.depth_eq {limited : Bool} (hp : Picture limited address s t) :
    t.callers.length + 1 = s.depth := by
  rw [hp.callers, List.length_map, ← s.callers.height_eq, State.depth]

/-- The steps of a turn are those of its picture. -/
theorem Picture.steps_turn {limited : Bool} (hp : Picture limited address s t) (p : Program)
    (hfree : ¬ Ending.Excused limited (p.turn s).ending) :
    (p.turn s).events.filter Event.isStep = Ideal.steps p t := by
  unfold Program.turn at hfree ⊢
  unfold Ideal.steps
  rw [hp.position, hp.height_eq, hp.depth_eq]
  cases hi : p.instructions[s.position]? with
  | none => rfl
  | some i =>
    have hf := simulates_execute i p address s t hp trivial
    simp only [hi] at hfree ⊢
    cases hr : (i.execute p).run s with
    | error cause s' =>
      simp only [hr] at hf hfree ⊢
      cases hr' : (Ideal.execute i p).run t with
      | error cause' t' => rfl
      | ok control t' =>
        rw [hr'] at hf
        exact absurd ⟨_, rfl, hf⟩ hfree
    | ok control s' =>
      simp only [hr] at hf ⊢
      cases hr' : (Ideal.execute i p).run t with
      | error cause' t' =>
        rw [hr'] at hf
        exact hf.elim
      | ok control' t' =>
        rw [hr'] at hf
        obtain ⟨address', hp', rfl⟩ := hf
        simp only [List.filter_cons, List.filter_append, steps_control, steps_afterInstruction,
          List.append_nil, hp'.depth_eq]
        rfl

end Turns

/-! ## Runs -/

/-- Two runs in states with one picture, whose observers were told of the same steps. -/
structure Run.Coincide (run run' : Run (List Event)) : Prop where
  ending : run'.ending = run.ending
  steps : run'.observed.filter Event.isStep = run.observed.filter Event.isStep
  picture : ∃ address address' t, Picture true address run.state t ∧ Picture true address' run'.state t

/-- The run was not stopped because there is no slot for another value. -/
def Run.HasRoom {σ : Type} (run : Run σ) : Prop :=
  ∀ fault, run.ending = some (.failed fault) → ¬ fault.cause.IsArena

/-- From states with one picture on, two runs do the same steps. -/
theorem coincide_runFrom (p : Program) (turns : Nat) {address address' : Nat → Nat} {s s' : State}
    {t : Ideal.State} (hp : Picture true address s t) (hp' : Picture true address' s' t)
    {seen seen' : List Event} (hseen : seen'.filter Event.isStep = seen.filter Event.isStep)
    (hroom : (p.runFrom Event.record turns s seen).HasRoom)
    (hroom' : (p.runFrom Event.record turns s' seen').HasRoom) :
    (p.runFrom Event.record turns s seen).Coincide (p.runFrom Event.record turns s' seen') := by
  induction turns generalizing address address' s s' t seen seen' with
  | zero => exact ⟨rfl, hseen, address, address', t, hp, hp'⟩
  | succ turns ih =>
    have hfree : ¬ Ending.Excused true (p.turn s).ending := by
      rintro ⟨fault, hf, hc⟩
      refine hroom fault ?_ hc
      rw [Program.runFrom, hf]
    have hfree' : ¬ Ending.Excused true (p.turn s').ending := by
      rintro ⟨fault, hf, hc⟩
      refine hroom' fault ?_ hc
      rw [Program.runFrom, hf]
    have htold : (seen' ++ (p.turn s').events).filter Event.isStep =
        (seen ++ (p.turn s).events).filter Event.isStep := by
      rw [List.filter_append, List.filter_append, hseen, hp.steps_turn p hfree,
        hp'.steps_turn p hfree']
    obtain ⟨hending, b, hb⟩ := (hp.turn p).resolve_left hfree
    obtain ⟨hending', b', hb'⟩ := (hp'.turn p).resolve_left hfree'
    simp only [Program.runFrom, foldl_record, hending, hending'] at hroom hroom' ⊢
    cases hi : (Ideal.turn p t).2 with
    | none =>
      simp only [hi] at hroom hroom' ⊢
      exact ih hb hb' htold hroom hroom'
    | some ending => exact ⟨rfl, htold, b, b', _, hb, hb'⟩

/-- Two recorded runs that cannot be told apart but by their collections. -/
structure Run.Alike (run run' : Run (List Event)) : Prop where
  ending : run'.ending = run.ending
  output : run'.state.output = run.state.output
  steps : run'.observed.filter Event.isStep = run.observed.filter Event.isStep
  allocations : run'.state.meter.counts?.map Prod.fst = run.state.meter.counts?.map Prod.fst
  outcome : run.ending = some .completed → ∃ stack globals stats stats',
    run.outcome? = some (.ok ⟨stack, globals, stats⟩) ∧
      run'.outcome? = some (.ok ⟨stack, globals, stats'⟩)

theorem Meter.counts?_unfreed (m : Meter) :
    m.unfreed.counts?.map Prod.fst = m.counts?.map Prod.fst := by
  cases m <;> rfl

theorem Run.Coincide.alike {run run' : Run (List Event)} (h : run.Coincide run') : run.Alike run' := by
  obtain ⟨address, address', t, hp, hp'⟩ := h.picture
  have hmeter : run'.state.meter.unfreed = run.state.meter.unfreed := by
    have := hp'.meter.symm.trans hp.meter
    simpa using this
  constructor
  · exact h.ending
  · rw [← hp'.output, hp.output]
  · exact h.steps
  · rw [← Meter.counts?_unfreed, hmeter, Meter.counts?_unfreed]
  · intro hc
    have hc' := h.ending.trans hc
    refine ⟨t.objects, t.globals, run.state.heap.stats run.state.collections,
      run'.state.heap.stats run'.state.collections, ?_, ?_⟩
    · rw [Run.outcome?, hc]
      exact congrArg some hp.outcome_eq
    · rw [Run.outcome?, hc']
      exact congrArg some hp'.outcome_eq

/-- Collections are not observed: after any number of turns, two runs that collect garbage at different
intervals have printed the same, done the same steps, allocated as often and come to the same end, as long
as neither was stopped because there is no slot for another value. -/
theorem Program.run_interval (p : Program) (limits : Limits) (interval interval' : Option Nat)
    (turns : Nat)
    (hroom : (p.run (.ofLimits { limits with interval }) turns Event.record []).HasRoom)
    (hroom' : (p.run (.ofLimits { limits with interval := interval' }) turns Event.record []).HasRoom) :
    (p.run (.ofLimits { limits with interval }) turns Event.record []).Alike
      (p.run (.ofLimits { limits with interval := interval' }) turns Event.record []) := by
  cases he : p.entry? with
  | none =>
    simp only [run, he]
    exact ⟨rfl, rfl, rfl, rfl, by simp⟩
  | some entry =>
    simp only [run, he] at hroom hroom' ⊢
    have hp := Picture.initial true entry p.size (.ofLimits { limits with interval })
    have hp' := Picture.initial true entry p.size (.ofLimits { limits with interval := interval' })
    exact (coincide_runFrom p turns hp hp' rfl hroom hroom').alike

/-- An array that is stored into and printed, with a collection after every counted instruction and with
none. -/
theorem Program.run_interval_array :
    let p : Program := ⟨#[⟨.push, ["2"]⟩, ⟨.array, ["a"]⟩, ⟨.push, ["7"]⟩, ⟨.push, ["1"]⟩,
      ⟨.pop, ["arr", "a"]⟩, ⟨.push, ["a"]⟩, ⟨.print, []⟩, ⟨.ret, ["0"]⟩], .ofList [("main", 0)]⟩
    let limits : Limits := ⟨none, none, none, none⟩
    (p.run (.ofLimits { limits with interval := some 1 }) 8 Event.record []).state.collections = 6 ∧
    (p.run (.ofLimits { limits with interval := some 9 }) 8 Event.record []).state.collections = 0 ∧
    (p.run (.ofLimits { limits with interval := some 1 }) 8 Event.record []).HasRoom ∧
    (p.run (.ofLimits { limits with interval := some 9 }) 8 Event.record []).HasRoom ∧
    (p.run (.ofLimits { limits with interval := some 1 }) 8 Event.record []).Alike
      (p.run (.ofLimits { limits with interval := some 9 }) 8 Event.record []) := by
  intro p limits
  have hended : (p.run (.ofLimits { limits with interval := some 1 }) 8 Event.record []).ending =
      some .completed := by cbv
  have hended' : (p.run (.ofLimits { limits with interval := some 9 }) 8 Event.record []).ending =
      some .completed := by cbv
  have hroom : (p.run (.ofLimits { limits with interval := some 1 }) 8 Event.record []).HasRoom := by
    intro fault hfault
    cases hended.symm.trans hfault
  have hroom' : (p.run (.ofLimits { limits with interval := some 9 }) 8 Event.record []).HasRoom := by
    intro fault hfault
    cases hended'.symm.trans hfault
  exact ⟨by cbv, by cbv, hroom, hroom', run_interval p limits (some 1) (some 9) 8 hroom hroom'⟩

end CMinusMinus
