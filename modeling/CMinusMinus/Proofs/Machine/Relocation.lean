import CMinusMinus.Machine.Run
import CMinusMinus.Proofs.Machine.Locality

/-!
# Relocation

A program whose instructions are moved runs in lockstep with the old one: every position of the one run
is the image of the position of the other. Return addresses are positions too, so they move in all
frames.
-/

namespace CMinusMinus

/-! ## Moved states -/

section Moves

variable (f : Nat → Nat)

def Frame.move (frame : Frame) : Frame :=
  { frame with returnAddress := f frame.returnAddress }

/-- The state with its position and all return addresses moved. -/
def State.move (s : State) : State :=
  { s with frame := s.frame.move f, callers := s.callers.map (Frame.move f), position := f s.position }

def Control.move : Control → Control
  | .next => .next
  | .jump target => .jump (f target)
  | .enter label target => .enter label (f target)
  | .leave target => .leave (f target)
  | .halt => .halt

def Event.move : Event → Event
  | .instruction position opcode stack frames => .instruction (f position) opcode stack frames
  | event => event

def Fault.move (fault : Fault) : Fault :=
  { fault with position := fault.position.map f }

def Ending.move : Ending → Ending
  | .completed => .completed
  | .failed fault => .failed (fault.move f)

def Turn.move (turn : Turn) : Turn :=
  ⟨turn.events.map (Event.move f), turn.state.move f, turn.ending.map (Ending.move f)⟩

/-- The run with its state and the position of its fault moved. -/
def Run.move {σ : Type} (run : Run σ) : Run σ :=
  ⟨run.ending.map (Ending.move f), run.state.move f, run.observed⟩

end Moves

/-! ## Control flow -/

/-- The return addresses of all frames, the current one first. -/
def State.returns (s : State) : List Nat :=
  s.frames.map Frame.returnAddress

/-- Where an instruction at a position may pass control, and what becomes of the return addresses. -/
inductive Flow (p : Program) (i : Instruction) (position : Nat) :
    List Nat → Control → List Nat → Prop where
  | next {returns : List Nat} (hj : i.opcode ≠ .jmp) (hr : i.opcode ≠ .ret) (hc : i.opcode ≠ .call) :
    Flow p i position returns .next returns
  | jump {returns : List Nat} {label : String} {target : Nat} (ha : i.args = [label])
      (ho : i.opcode = .jz ∨ i.opcode = .jmp) (ht : p.labels.get? label = some target) :
    Flow p i position returns (.jump target) returns
  | enter {returns : List Nat} {label : String} {target : Nat} (ha : i.args = [label])
      (ho : i.opcode = .call) (ht : p.labels.get? label = some target) :
    Flow p i position returns (.enter label target) ((position + 1) :: returns)
  | leave {returns : List Nat} {target : Nat} (ho : i.opcode = .ret) :
    Flow p i position (target :: returns) (.leave target) returns
  | halt {target : Nat} (ho : i.opcode = .ret) : Flow p i position [target] .halt [target]

open CMinusMinus.Action

/-- A local action stays where it is. -/
theorem Action.Local.stays {α : Type} {a : Action α} (ha : Local a) (s : State) :
    a.run s =
      mapResult id (State.placed s.position s.frame.returnAddress s.callers) (a.run s) :=
  ha s.position s.frame.returnAddress s.callers s

theorem Action.Local.run_move {α : Type} {a : Action α} (ha : Local a) (f : Nat → Nat) (s : State) :
    a.run (s.move f) = mapResult id (State.move f) (a.run s) := by
  have hm := ha (f s.position) (f s.frame.returnAddress) (s.callers.map (Frame.move f)) s
  have hs := ha.stays s
  have hplaced : s.move f =
      s.placed (f s.position) (f s.frame.returnAddress) (s.callers.map (Frame.move f)) := rfl
  rw [hplaced, hm]
  cases hr : a.run s with
  | ok x t =>
    rw [hr] at hs
    injection hs with _ ht
    rw [ht]
    rfl
  | error e t =>
    rw [hr] at hs
    injection hs with _ ht
    rw [ht]
    rfl

theorem Stack.pop?_map {α : Type} (g : α → α) (s : Stack α) :
    (s.map g).pop? = s.pop?.map fun popped => (g popped.1, popped.2.map g) := by
  cases h : s.pop? with
  | none =>
    rw [pop?_eq_none_iff.1 h]
    rfl
  | some popped =>
    rw [pop?_eq_some_iff.1 h]
    rfl

/-! ## Instructions -/

section Flows

variable {p : Program} {s t : State} {control : Control}

theorem flow_test {label : String} (h : (jumpIfZero p label).run s = .ok control t) :
    t.position = s.position ∧ Flow p ⟨.jz, [label]⟩ s.position s.returns control t.returns := by
  rw [run_jumpIfZero] at h
  cases hl : p.labels.get? label with
  | none =>
    rw [hl] at h
    cases h
  | some target =>
    rw [hl] at h
    dsimp only at h
    split at h
    · split at h
      · cases h
        refine ⟨rfl, ?_⟩
        split
        · exact .jump rfl (.inl rfl) hl
        · exact .next (by simp) (by simp) (by simp)
      · cases h
      · cases h
    · cases h

theorem flow_jump {label : String}
    (h : (resolve p label >>= fun target => pure (.jump target)).run s = .ok control t) :
    t.position = s.position ∧ Flow p ⟨.jmp, [label]⟩ s.position s.returns control t.returns := by
  rw [EStateM.run_bind, run_resolve] at h
  cases hl : p.labels.get? label with
  | none =>
    rw [hl] at h
    cases h
  | some target =>
    rw [hl] at h
    cases h
    exact ⟨rfl, .jump rfl (.inr rfl) hl⟩

theorem flow_call {label : String} (h : (enter p label).run s = .ok control t) :
    t.position = s.position ∧ Flow p ⟨.call, [label]⟩ s.position s.returns control t.returns := by
  rw [run_enter] at h
  cases hl : p.labels.get? label with
  | none =>
    rw [hl] at h
    cases h
  | some target =>
    rw [hl] at h
    dsimp only at h
    split at h
    · cases h
      exact ⟨rfl, .enter rfl rfl hl⟩
    · cases h

theorem flow_ret {count : String} (h : (leave count).run s = .ok control t) :
    t.position = s.position ∧ Flow p ⟨.ret, [count]⟩ s.position s.returns control t.returns := by
  rw [run_leave] at h
  split at h
  · cases h
  · split at h
    · rename_i hp
      cases h
      have hs : s.returns = [s.frame.returnAddress] := by
        simp only [State.returns, State.frames, Stack.pop?_eq_none_iff.1 hp]
        rfl
      rw [hs]
      exact ⟨rfl, .halt rfl⟩
    · rename_i caller callers hp
      split at h
      · cases h
      · cases h
        have hs : s.callers.items = caller :: callers.items := by
          rw [Stack.pop?_eq_some_iff.1 hp]
          rfl
        simp only [State.returns, State.frames, hs, List.map_cons]
        exact ⟨trivial, .leave rfl⟩

/-- What an instruction does to control. -/
theorem Instruction.flow {i : Instruction} (h : (i.execute p).run s = .ok control t) :
    t.position = s.position ∧ Flow p i s.position s.returns control t.returns := by
  cases i.shape with
  | straight a ha he ho =>
    have hs := ha.stays s
    rw [he, EStateM.run_bind] at h
    cases hr : a.run s with
    | error e u =>
      rw [hr] at h
      cases h
    | ok x u =>
      rw [hr] at h hs
      cases h
      injection hs with _ hu
      rw [hu]
      exact ⟨rfl, .next (Opcode.ne_of_isStraight ho rfl) (Opcode.ne_of_isStraight ho rfl)
        (Opcode.ne_of_isStraight ho rfl)⟩
  | test label hi =>
    subst hi
    exact flow_test h
  | jump label hi =>
    subst hi
    exact flow_jump h
  | call label hi =>
    subst hi
    exact flow_call h
  | ret count hi =>
    subst hi
    exact flow_ret h
  | malformed he =>
    rw [he] at h
    cases h

end Flows

section Moves

variable {p q : Program} {f : Nat → Nat}

theorem run_jumpIfZero_move (hl : ∀ label, q.labels.get? label = (p.labels.get? label).map f)
    (label : String) (s : State) : (jumpIfZero q label).run (s.move f) =
      mapResult (Control.move f) (State.move f) ((jumpIfZero p label).run s) := by
  rw [run_jumpIfZero, run_jumpIfZero, hl]
  cases p.labels.get? label with
  | none => rfl
  | some target =>
    simp only [Option.map_some, State.move]
    cases s.stack.pop? with
    | none => rfl
    | some popped =>
      dsimp only
      rcases s.heap.get? popped.1 with _ | value | elements
      · rfl
      · dsimp only
        split <;> rfl
      · rfl

theorem run_enter_move (hl : ∀ label, q.labels.get? label = (p.labels.get? label).map f)
    (label : String) (s : State) (hn : f (s.position + 1) = f s.position + 1) :
    (enter q label).run (s.move f) =
      mapResult (Control.move f) (State.move f) ((enter p label).run s) := by
  rw [run_enter, run_enter, hl]
  cases p.labels.get? label with
  | none => rfl
  | some target =>
    have hd : (s.move f).depth = s.depth := rfl
    have hm : (s.move f).meter = s.meter := rfl
    simp only [Option.map_some, hd, hm]
    cases s.meter.checkDepth s.depth with
    | error e => rfl
    | ok =>
      have hf : f s.position + 1 = f (s.position + 1) := hn.symm
      simp only [State.move, mapResult, Frame.move, Frame.entered, hf]
      rfl

theorem run_leave_move (count : String) (s : State) : (leave count).run (s.move f) =
    mapResult (Control.move f) (State.move f) ((leave count).run s) := by
  rw [run_leave, run_leave]
  cases Text.readCount? count with
  | none => rfl
  | some count =>
    have hc : (s.move f).callers.pop? = (s.callers.map (Frame.move f)).pop? := rfl
    rw [hc, Stack.pop?_map]
    cases s.callers.pop? with
    | none => rfl
    | some popped =>
      show (if s.stack.height < count then _ else _) = mapResult _ _ (if _ then _ else _)
      split <;> rfl

/-- An instruction does the same in a moved state, where labels are moved as well. -/
theorem Instruction.run_execute_move
    (hl : ∀ label, q.labels.get? label = (p.labels.get? label).map f) (i : Instruction) (s : State)
    (hn : f (s.position + 1) = f s.position + 1) :
    (i.execute q).run (s.move f) =
      mapResult (Control.move f) (State.move f) ((i.execute p).run s) := by
  cases i.shape with
  | straight a ha he ho =>
    rw [he, he, EStateM.run_bind, EStateM.run_bind, ha.run_move f]
    cases a.run s <;> rfl
  | test label hi =>
    subst hi
    exact run_jumpIfZero_move hl label s
  | jump label hi =>
    subst hi
    show (resolve q label >>= fun target => pure (Control.jump target)).run (s.move f) =
      mapResult _ _ ((resolve p label >>= fun target => pure (Control.jump target)).run s)
    rw [EStateM.run_bind, EStateM.run_bind, run_resolve, run_resolve, hl]
    cases p.labels.get? label <;> rfl
  | call label hi =>
    subst hi
    exact run_enter_move hl label s hn
  | ret count hi =>
    subst hi
    exact run_leave_move count s
  | malformed he =>
    rw [he, he]
    rfl

end Moves

/-! ## Turns -/

section Turns

variable {p q : Program} {f : Nat → Nat} {s : State}

theorem State.roots_move (f : Nat → Nat) (s : State) : (s.move f).roots = s.roots := by
  simp only [roots, frames, move, Stack.items_map, List.flatMap_cons, List.flatMap_map]
  rfl

theorem State.collect_move (f : Nat → Nat) (s : State) :
    (s.move f).collect = (s.collect.1, s.collect.2.move f) := by
  have hc : ∀ marks, (s.callers.map (Frame.move f)).map (Frame.prune · marks) =
      (s.callers.map (Frame.prune · marks)).map (Frame.move f) := by
    intro marks
    ext1
    simp only [Stack.items_map, List.map_map]
    rfl
  simp only [collect, roots_move]
  simp only [move, hc]
  rfl

theorem State.afterInstruction_move (f : Nat → Nat) (s : State) (opcode : Opcode) :
    (s.move f).afterInstruction opcode =
      (((s.afterInstruction opcode).1).map (Event.move f), (s.afterInstruction opcode).2.move f) := by
  have hcount : (if isCounted opcode then (s.move f).count else s.move f) =
      (if isCounted opcode then s.count else s).move f := by
    split <;> rfl
  simp only [afterInstruction, hcount]
  generalize (if isCounted opcode then s.count else s) = t
  have hdue : (t.move f).isCollectionDue = t.isCollectionDue := rfl
  rw [hdue, collect_move]
  split <;> rfl

/-- What follows an instruction changes neither the position nor the return addresses. -/
theorem State.position_afterInstruction (s : State) (opcode : Opcode) :
    (s.afterInstruction opcode).2.position = s.position ∧
      (s.afterInstruction opcode).2.returns = s.returns := by
  have hcount : (if isCounted opcode then s.count else s).position = s.position ∧
      (if isCounted opcode then s.count else s).returns = s.returns := by
    split <;> exact ⟨rfl, rfl⟩
  rw [afterInstruction]
  generalize (if isCounted opcode then s.count else s) = t at hcount
  dsimp only
  split
  · refine ⟨hcount.1, ?_⟩
    rw [← hcount.2]
    simp [returns, frames, collect, Frame.prune]
  · exact hcount

theorem Control.apply_move (control : Control) (hn : f (s.position + 1) = f s.position + 1) :
    (control.move f).apply (s.move f) = (control.apply s).move f := by
  cases control with
  | next => simp only [apply, Control.move, State.move, hn]
  | _ => rfl

theorem Control.events_move (control : Control) (depth : Nat) :
    (control.move f).events depth = (control.events depth).map (Event.move f) := by
  cases control <;> rfl

/-- A program that has at the image of a position what the old one has there takes the same turn. -/
theorem Program.turn_move (hl : ∀ label, q.labels.get? label = (p.labels.get? label).map f)
    (hf : q.instructions[f s.position]? = p.instructions[s.position]?)
    (hn : s.position < p.size → f (s.position + 1) = f s.position + 1) :
    q.turn (s.move f) = (p.turn s).move f := by
  have hf : q.instructions[(s.move f).position]? = p.instructions[s.position]? := hf
  unfold turn
  rw [hf]
  cases hi : p.instructions[s.position]? with
  | none => rfl
  | some i =>
    have hn := hn (Array.getElem?_eq_some_iff.1 hi).1
    have he := i.run_execute_move hl s hn
    dsimp only
    rw [he]
    cases hr : (i.execute p).run s with
    | error cause t => rfl
    | ok control t =>
      have hp : f ((t.afterInstruction i.opcode).2.position + 1) =
          f (t.afterInstruction i.opcode).2.position + 1 := by
        rw [(t.position_afterInstruction i.opcode).1, (Instruction.flow hr).1, hn]
      have hdepth : (t.move f).depth = t.depth := rfl
      simp only [mapResult, State.afterInstruction_move, hdepth, Control.events_move,
        Control.apply_move control hp, Turn.move, List.map_cons, List.map_append]
      cases control <;> rfl

end Turns

/-! ## Runs -/

/-- The program `q` has the instructions of `p` at the images of the positions in `G`, which control
does not leave. -/
structure Relocates (p q : Program) (f : Nat → Nat) (G : Nat → Prop) : Prop where
  labels : ∀ label, q.labels.get? label = (p.labels.get? label).map f
  fetch : ∀ k, G k → q.instructions[f k]? = p.instructions[k]?
  next : ∀ k, G k → k < p.size → f (k + 1) = f k + 1
  size : f p.size = q.size
  falls : ∀ k i, G k → p.instructions[k]? = some i → i.opcode ≠ .jmp → i.opcode ≠ .ret → G (k + 1)
  jumps : ∀ k i label target, G k → p.instructions[k]? = some i → i.args = [label] →
    i.opcode = .jz ∨ i.opcode = .jmp ∨ i.opcode = .call → p.labels.get? label = some target → G target
  entry : ∀ k, p.entry? = some k → G k
  stop : G p.size

/-- Control is in `G`, and so is every place to which it may return. -/
structure State.Within (G : Nat → Prop) (s : State) : Prop where
  position : G s.position
  returns : ∀ k ∈ s.returns, G k

namespace Relocates

variable {p q : Program} {f : Nat → Nat} {G : Nat → Prop}

theorem within_flow (h : Relocates p q f G) {i : Instruction} {k : Nat} {before after : List Nat}
    {control : Control} (hi : p.instructions[k]? = some i) (hk : G k) (hb : ∀ r ∈ before, G r)
    (hflow : Flow p i k before control after) :
    (∀ r ∈ after, G r) ∧ ∀ s : State, s.position = k → G (control.apply s).position := by
  cases hflow with
  | next hj hr =>
    refine ⟨hb, fun s hs => ?_⟩
    subst hs
    exact h.falls _ i hk hi hj hr
  | jump ha ho ht =>
    refine ⟨hb, fun s _ => h.jumps k i _ _ hk hi ha ?_ ht⟩
    rcases ho with ho | ho
    · exact .inl ho
    · exact .inr (.inl ho)
  | enter ha ho ht =>
    refine ⟨fun r hr => ?_, fun s _ => h.jumps k i _ _ hk hi ha (.inr (.inr ho)) ht⟩
    rcases List.mem_cons.1 hr with rfl | hr
    · exact h.falls k i hk hi (by simp [ho]) (by simp [ho])
    · exact hb r hr
  | leave => exact ⟨fun r hr => hb r (by simp [hr]), fun s _ => hb _ (List.mem_cons_self ..)⟩
  | halt =>
    refine ⟨hb, fun s hs => ?_⟩
    subst hs
    exact hk

theorem within_turn (h : Relocates p q f G) {s : State} (hs : s.Within G)
    (he : (p.turn s).ending = none) : (p.turn s).state.Within G := by
  unfold Program.turn at he ⊢
  cases hi : p.instructions[s.position]? with
  | none => simp [hi] at he
  | some i =>
    simp only [hi] at he ⊢
    cases hr : (i.execute p).run s with
    | error cause t => simp [hr] at he
    | ok control t =>
      obtain ⟨hp, hflow⟩ := Instruction.flow hr
      obtain ⟨hpos, hret⟩ := t.position_afterInstruction i.opcode
      obtain ⟨ha, hc⟩ := h.within_flow hi hs.position hs.returns hflow
      have hreturns : (control.apply (t.afterInstruction i.opcode).2).returns = t.returns := by
        rw [← hret]
        cases control <;> rfl
      refine ⟨hc _ (hpos.trans hp), ?_⟩
      rw [hreturns]
      exact ha

theorem runFrom_move {σ : Type} (h : Relocates p q f G) (observe : σ → Event → σ) (turns : Nat)
    {s : State} (hs : s.Within G) (start : σ) :
    q.runFrom observe turns (s.move f) start =
      (p.runFrom (fun seen event => observe seen (event.move f)) turns s start).move f := by
  induction turns generalizing s start with
  | zero => rfl
  | succ turns ih =>
    have ht : q.turn (s.move f) = (p.turn s).move f :=
      Program.turn_move h.labels (h.fetch _ hs.position) (h.next _ hs.position)
    simp only [Program.runFrom, ht, Turn.move, List.foldl_map]
    cases he : (p.turn s).ending with
    | none => exact ih (h.within_turn hs he) _
    | some ending => rfl

theorem run_move {σ : Type} (h : Relocates p q f G) {entry : Nat} (he : p.entry? = some entry)
    (meter : Meter) (turns : Nat) (observe : σ → Event → σ) (start : σ) :
    q.run meter turns observe start =
      (p.run meter turns (fun seen event => observe seen (event.move f)) start).move f := by
  have hq : q.entry? = some (f entry) := by
    have hl := h.labels Program.entryName
    unfold Program.entry? at he ⊢
    rw [hl, he]
    rfl
  have hi : q.initial (f entry) meter = (p.initial entry meter).move f := by
    simp only [Program.initial, State.initial, State.move, Frame.entered, Frame.move, h.size]
    rfl
  have hw : (p.initial entry meter).Within G := by
    refine ⟨h.entry entry he, ?_⟩
    intro k hk
    obtain rfl : k = p.size := by simpa [Program.initial, State.initial, State.returns,
      State.frames, Frame.entered, Stack.empty] using hk
    exact h.stop
  simp only [Program.run, hq, he, hi]
  exact h.runFrom_move observe turns hw start

end Relocates

theorem State.outermost_move (f : Nat → Nat) (s : State) : (s.move f).outermost = s.outermost.move f := by
  simp only [outermost, move, Stack.items_map, List.getLastD_eq_getLast?, List.getLast?_map]
  cases s.callers.items.getLast? <;> rfl

/-- What a state leaves behind does not depend on where control is. -/
theorem State.outcome_move (f : Nat → Nat) (s : State) : (s.move f).outcome = s.outcome := by
  have hb : (s.move f).outermost.bindings = s.outermost.bindings := by
    rw [outermost_move]
    rfl
  simp only [outcome, hb]
  rfl

theorem Run.outcome?_move {σ : Type} (f : Nat → Nat) (run : Run σ) :
    (run.move f).outcome? = run.outcome?.map (Except.mapError (Fault.move f)) := by
  obtain ⟨ending, s, observed⟩ := run
  rcases ending with _ | _ | fault
  · rfl
  · have ho : ∀ e : Except Handle Outcome, (e.mapError fun h => (⟨.dangling h, none⟩ : Fault)) =
        (e.mapError fun h => (⟨.dangling h, none⟩ : Fault)).mapError (Fault.move f) := by
      intro e
      cases e <;> rfl
    show some (s.move f).outcome = some (s.outcome.mapError (Fault.move f))
    rw [State.outcome_move]
    exact congrArg some (ho _)
  · rfl

end CMinusMinus
