import CMinusMinus.Proofs.Machine.Loosening
import CMinusMinus.Proofs.Machine.Relocation
import Mathlib

/-!
# Calls and returns

A turn leaves all frames but the current one as they are, puts a new frame in front of them, or takes the
current one away. So calls and returns are brackets: the depth is one more than the calls that are open, and
what a call finds is what its return brings back.
-/

namespace CMinusMinus

/-! ## Events -/

namespace Event

def isCall : Event → Bool
  | call _ _ => true
  | _ => false

def isReturn : Event → Bool
  | ret _ => true
  | _ => false

/-- Whether a frame was entered or left. -/
def isBracket (event : Event) : Bool :=
  event.isCall || event.isReturn

def calls (events : List Event) : Nat :=
  events.countP isCall

def returns (events : List Event) : Nat :=
  events.countP isReturn

theorem calls_brackets (events : List Event) : calls (events.filter isBracket) = calls events := by
  rw [calls, List.countP_filter]
  refine List.countP_congr fun event _ => ?_
  cases event <;> simp [isBracket, isCall]

theorem returns_brackets (events : List Event) : returns (events.filter isBracket) = returns events := by
  rw [returns, List.countP_filter]
  refine List.countP_congr fun event _ => ?_
  cases event <;> simp [isBracket, isReturn]

end Event

/-! ## Frames -/

/-- What a suspended frame keeps: its variables and where its caller goes on. -/
def Frame.link (frame : Frame) : Bindings × Nat :=
  (frame.bindings, frame.returnAddress)

namespace State

/-- The variables and return addresses of all frames, the current one first. -/
def links (s : State) : List (Bindings × Nat) :=
  s.frames.map Frame.link

theorem length_links (s : State) : s.links.length = s.depth := by
  rw [links, List.length_map, frames, List.length_cons, depth, s.callers.height_eq]

theorem links_afterInstruction (s : State) (opcode : Opcode) :
    (s.afterInstruction opcode).2.links = s.links := by
  refine afterInstruction_keeps links (fun _ => rfl) (fun t => ?_) s opcode
  simp only [links, frames, collect, Frame.prune, Stack.items_map, List.map_cons, List.map_map]
  rfl

end State

/-- How many frames there may be, if there is a limit. -/
def Meter.depthLimit? : Meter → Option Nat
  | plain => some standardDepth
  | counting limits _ _ => limits.depth

theorem Meter.lt_of_checkDepth {m : Meter} {current limit : Nat} (hm : m.checkDepth current = .ok ())
    (hl : m.depthLimit? = some limit) : current < limit := by
  by_contra hle
  cases m with
  | plain =>
    cases hl
    rw [checkDepth, if_pos (Nat.le_of_not_lt hle)] at hm
    cases hm
  | counting limits allocated freed =>
    have hl : limits.depth = some limit := hl
    rw [checkDepth, hl] at hm
    dsimp only at hm
    rw [if_pos (Nat.le_of_not_lt hle)] at hm
    cases hm

theorem Meter.depthLimit?_allocate {m m' : Meter} (h : m.allocate = .ok m') :
    m'.depthLimit? = m.depthLimit? := by
  rcases Meter.allocate_eq_ok h with ⟨rfl, rfl⟩ | ⟨limits, allocated, freed, rfl, rfl⟩ <;> rfl

theorem Meter.depthLimit?_free (m : Meter) (count : Nat) : (m.free count).depthLimit? = m.depthLimit? := by
  cases m <;> rfl

theorem Program.depthLimit?_turn (p : Program) (s : State) :
    (p.turn s).state.meter.depthLimit? = s.meter.depthLimit? := by
  refine p.turn_relates (R := fun s t => t.meter.depthLimit? = s.meter.depthLimit?) (fun h => ?_)
    (fun h h' => h'.trans h) (fun _ => rfl) (fun s => s.meter.depthLimit?_free _) (fun _ _ => rfl) s
  cases h with
  | allocate h | full h => exact Meter.depthLimit?_allocate h
  | _ => rfl

/-! ## Turns -/

/-- What a turn does to the frames, with the events that tell of it. -/
inductive State.Bracket (s : State) : List Event → State → Prop where
  | stays {t : State} (bindings : Bindings)
      (h : t.links = (bindings, s.frame.returnAddress) :: s.links.tail) : Bracket s [] t
  | enters {t : State} (label : String) (hd : s.meter.checkDepth s.depth = .ok ())
      (h : t.links = ([], s.position + 1) :: s.links) : Bracket s [.call label t.depth] t
  | leaves {t : State} (bindings : Bindings) (hs : t.stack = s.stack)
      (h : s.links = (bindings, t.position) :: t.links) : Bracket s [.ret t.depth] t

theorem State.brackets_afterInstruction (s : State) (opcode : Opcode) :
    (s.afterInstruction opcode).1.filter Event.isBracket = [] := by
  refine List.filter_eq_nil_iff.2 fun event he => ?_
  obtain ⟨freed, live, rfl⟩ := State.events_afterInstruction he
  simp [Event.isBracket, Event.isCall, Event.isReturn]

theorem Control.brackets_events (control : Control) (depth : Nat) :
    (control.events depth).filter Event.isBracket = control.events depth := by
  cases control <;> rfl

section Turns

variable {p : Program} {s t : State} {i : Instruction}

theorem Control.links_apply (control : Control) (s : State) : (control.apply s).links = s.links := by
  cases control <;> rfl

theorem Control.depth_apply (control : Control) (s : State) : (control.apply s).depth = s.depth := by
  cases control <;> rfl

theorem Program.turn_ok (hi : p.instructions[s.position]? = some i) {control : Control}
    (hr : (i.execute p).run s = .ok control t) :
    (p.turn s).events.filter Event.isBracket = control.events (p.turn s).state.depth ∧
      (p.turn s).state = control.apply (t.afterInstruction i.opcode).2 := by
  have hdepth : (t.afterInstruction i.opcode).2.depth = t.depth :=
    State.afterInstruction_keeps State.depth (fun _ => rfl) (fun _ => rfl) t _
  simp only [turn, hi, hr, and_true]
  rw [List.filter_cons_of_neg (by simp [Event.isBracket, Event.isCall, Event.isReturn]),
    List.filter_append, Control.brackets_events, State.brackets_afterInstruction, List.append_nil,
    Control.depth_apply, hdepth]

theorem Program.turn_error (hi : p.instructions[s.position]? = some i) {cause : Fault.Cause}
    (hr : (i.execute p).run s = .error cause t) :
    (p.turn s).events.filter Event.isBracket = [] ∧ (p.turn s).state = t := by
  simp only [turn, hi, hr, and_true]
  rfl

theorem Flow.events_eq_nil {position depth : Nat} {before after : List Nat} {control : Control}
    (h : Flow p i position before control after) (hc : i.opcode ≠ .call) (hr : i.opcode ≠ .ret) :
    control.events depth = [] := by
  cases h with
  | next | jump => rfl
  | enter _ ho => exact absurd ho hc
  | leave ho | halt ho => exact absurd ho hr

theorem Action.Local.links {α : Type} {a : Action α} (ha : a.Local) (s : State) :
    (a.final s).links = ((a.final s).frame.bindings, s.frame.returnAddress) :: s.links.tail := by
  have hs := ha.stays s
  unfold Action.final
  cases hr : a.run s with
  | ok x t =>
    rw [hr] at hs
    injection hs with _ ht
    rw [ht]
    rfl
  | error e t =>
    rw [hr] at hs
    injection hs with _ ht
    rw [ht]
    rfl

theorem bracket_local (hi : p.instructions[s.position]? = some i) (ha : (i.execute p).Local)
    (hc : i.opcode ≠ .call) (hr : i.opcode ≠ .ret) :
    s.Bracket ((p.turn s).events.filter Event.isBracket) (p.turn s).state := by
  have hlinks := ha.links s
  unfold Action.final at hlinks
  cases hrun : (i.execute p).run s with
  | ok control t =>
    rw [hrun] at hlinks
    obtain ⟨he, hs⟩ := Program.turn_ok hi hrun
    rw [he, (Instruction.flow hrun).2.events_eq_nil hc hr, hs]
    exact .stays _ ((control.links_apply _).trans ((t.links_afterInstruction _).trans hlinks))
  | error cause t =>
    rw [hrun] at hlinks
    obtain ⟨he, hs⟩ := Program.turn_error hi hrun
    rw [he, hs]
    exact .stays _ hlinks

theorem bracket_call {label : String} (hi : p.instructions[s.position]? = some ⟨.call, [label]⟩) :
    s.Bracket ((p.turn s).events.filter Event.isBracket) (p.turn s).state := by
  have hrun : (Instruction.execute ⟨.call, [label]⟩ p).run s = _ := Action.run_enter s p label
  cases hl : p.labels.get? label with
  | none =>
    simp only [hl] at hrun
    obtain ⟨he, hs⟩ := Program.turn_error hi hrun
    rw [he, hs]
    exact .stays _ rfl
  | some target =>
    cases hd : s.meter.checkDepth s.depth with
    | error e =>
      simp only [hl, hd] at hrun
      obtain ⟨he, hs⟩ := Program.turn_error hi hrun
      rw [he, hs]
      exact .stays _ rfl
    | ok =>
      simp only [hl, hd] at hrun
      obtain ⟨he, hs⟩ := Program.turn_ok hi hrun
      rw [he]
      refine .enters label hd ?_
      rw [hs, Control.links_apply, State.links_afterInstruction]
      rfl

theorem bracket_ret {count : String} (hi : p.instructions[s.position]? = some ⟨.ret, [count]⟩) :
    s.Bracket ((p.turn s).events.filter Event.isBracket) (p.turn s).state := by
  have hrun : (Instruction.execute ⟨.ret, [count]⟩ p).run s = _ := Action.run_leave s count
  cases hn : Text.readCount? count with
  | none =>
    simp only [hn] at hrun
    obtain ⟨he, hs⟩ := Program.turn_error hi hrun
    rw [he, hs]
    exact .stays _ rfl
  | some number =>
    cases hp : s.callers.pop? with
    | none =>
      simp only [hn, hp] at hrun
      obtain ⟨he, hs⟩ := Program.turn_ok hi hrun
      rw [he, hs]
      refine .stays s.frame.bindings ?_
      rw [Control.links_apply, State.links_afterInstruction]
      rfl
    | some popped =>
      obtain ⟨caller, callers⟩ := popped
      by_cases hlt : s.stack.height < number
      · simp only [hn, hp, if_pos hlt] at hrun
        obtain ⟨he, hs⟩ := Program.turn_error hi hrun
        rw [he, hs]
        exact .stays _ rfl
      · simp only [hn, hp, if_neg hlt] at hrun
        obtain ⟨he, hs⟩ := Program.turn_ok hi hrun
        have hlinks : s.links = s.frame.link :: caller.link :: callers.items.map Frame.link := by
          rw [State.links, State.frames, Stack.pop?_eq_some_iff.1 hp]
          rfl
        rw [he]
        refine .leaves s.frame.bindings ?_ ?_
        · rw [hs]
          exact State.stack_afterInstruction _ _
        · rw [hs, Control.links_apply, State.links_afterInstruction, hlinks]
          rfl

theorem bracket_turn (p : Program) (s : State) :
    s.Bracket ((p.turn s).events.filter Event.isBracket) (p.turn s).state := by
  cases hi : p.instructions[s.position]? with
  | none =>
    rw [Program.turn, hi]
    exact .stays s.frame.bindings rfl
  | some i =>
    cases i.shape with
    | straight a ha he ho =>
      refine bracket_local hi ?_ (Opcode.ne_of_isStraight ho rfl) (Opcode.ne_of_isStraight ho rfl)
      rw [he]
      exact ha.bind fun _ => Action.local_pure _
    | test label he =>
      subst he
      exact bracket_local hi (Action.local_jumpIfZero p label) (by simp) (by simp)
    | jump label he =>
      subst he
      exact bracket_local hi ((Action.local_resolve p label).bind fun _ => Action.local_pure _) (by simp)
        (by simp)
    | call label he =>
      subst he
      exact bracket_call hi
    | ret count he =>
      subst he
      exact bracket_ret hi
    | malformed he =>
      obtain ⟨hb, hs⟩ := Program.turn_error hi (congrArg (fun a : Action Control => a.run s) (he p))
      rw [hb, hs]
      exact .stays s.frame.bindings rfl

end Turns

theorem Program.depth_turn (p : Program) (s : State) :
    (p.turn s).state.depth + Event.returns (p.turn s).events = s.depth + Event.calls (p.turn s).events := by
  have hb := bracket_turn p s
  rw [← Event.calls_brackets, ← Event.returns_brackets, ← State.length_links, ← State.length_links]
  generalize (p.turn s).events.filter Event.isBracket = events at hb
  cases hb with
  | stays bindings h =>
    rw [h]
    rfl
  | enters label hd h =>
    rw [h]
    rfl
  | leaves bindings hs h =>
    rw [h]
    rfl

theorem Program.depth_turn_le (p : Program) (s : State) {limit : Nat}
    (hl : s.meter.depthLimit? = some limit) (hd : s.depth ≤ max 1 limit) :
    (p.turn s).state.depth ≤ max 1 limit := by
  have hb := bracket_turn p s
  rw [← State.length_links] at hd ⊢
  generalize (p.turn s).events.filter Event.isBracket = events at hb
  cases hb with
  | stays bindings h =>
    rw [h]
    exact hd
  | enters label hdepth h =>
    have hlt := Meter.lt_of_checkDepth hdepth hl
    rw [← State.length_links] at hlt
    rw [h, List.length_cons]
    omega
  | leaves bindings hs h =>
    rw [h, List.length_cons] at hd
    omega

/-! ## Runs -/

/-- Every instruction is told with one more frame than there are open calls, and within the limit. -/
def Event.Counted (limit? : Option Nat) (events : List Event) : Prop :=
  ∀ (k position : Nat) (opcode : Opcode) (stack depth : Nat),
    events[k]? = some (.instruction position opcode stack depth) →
      depth + returns (events.take k) = 1 + calls (events.take k) ∧
      ∀ limit, limit? = some limit → depth ≤ max 1 limit

/-- A turn tells of one instruction, at the depth before it. -/
theorem Program.instruction_mem_turn {p : Program} {s : State} {k position : Nat} {opcode : Opcode}
    {stack depth : Nat} (h : (p.turn s).events[k]? = some (.instruction position opcode stack depth)) :
    k = 0 ∧ depth = s.depth := by
  unfold turn at h
  cases hi : p.instructions[s.position]? with
  | none =>
    rw [hi] at h
    cases h
  | some i =>
    rw [hi] at h
    dsimp only at h
    cases hr : (i.execute p).run s with
    | error cause t =>
      rw [hr] at h
      cases k with
      | zero =>
        cases h
        exact ⟨rfl, rfl⟩
      | succ k => cases h
    | ok control t =>
      rw [hr] at h
      cases k with
      | zero =>
        cases h
        exact ⟨rfl, rfl⟩
      | succ k =>
        exfalso
        rcases List.mem_append.1 (List.mem_of_getElem? h) with hm | hm
        · cases control <;> simp [Control.events] at hm
        · obtain ⟨freed, live, he⟩ := State.events_afterInstruction hm
          cases he

/-- What holds of a recorded run: its depth counts the open calls, and so did the depths it was told. -/
structure Run.Counts (limit? : Option Nat) (run : Run (List Event)) : Prop where
  meter : run.state.meter.depthLimit? = limit?
  depth : run.state.depth + Event.returns run.observed = 1 + Event.calls run.observed
  limited : ∀ limit, limit? = some limit → run.state.depth ≤ max 1 limit
  told : Event.Counted limit? run.observed

theorem Run.Counts.next {limit? : Option Nat} {run : Run (List Event)} (h : run.Counts limit?)
    (p : Program) : (run.next p Event.record).Counts limit? := by
  cases he : run.ending with
  | some ending => rwa [next_ended he]
  | none =>
    have hdepth := h.depth
    have hturn := p.depth_turn run.state
    rw [next_going he, foldl_record]
    refine ⟨(p.depthLimit?_turn run.state).trans h.meter, ?_, fun limit hl => ?_, ?_⟩
    · simp only [Event.returns, Event.calls, List.countP_append] at hdepth hturn ⊢
      omega
    · exact p.depth_turn_le run.state (h.meter.trans hl) (h.limited limit hl)
    · intro k position opcode stack depth hk
      rcases Nat.lt_or_ge k run.observed.length with hlt | hge
      · rw [List.getElem?_append_left hlt] at hk
        rw [List.take_append_of_le_length (Nat.le_of_lt hlt)]
        exact h.told k position opcode stack depth hk
      · rw [List.getElem?_append_right hge] at hk
        obtain ⟨hzero, rfl⟩ := Program.instruction_mem_turn hk
        obtain rfl : k = run.observed.length := by omega
        rw [List.take_left]
        exact ⟨hdepth, h.limited⟩

theorem Program.run_counts (p : Program) (meter : Meter) (turns : Nat) :
    (p.run meter turns Event.record []).Counts meter.depthLimit? := by
  induction turns with
  | zero =>
    unfold run
    cases p.entry? with
    | none => exact ⟨rfl, rfl, fun limit _ => Nat.le_max_left 1 limit, nofun⟩
    | some entry => exact ⟨rfl, rfl, fun limit _ => Nat.le_max_left 1 limit, nofun⟩
  | succ turns ih =>
    rw [run_succ]
    exact ih.next p

/-! ## Suspended frames -/

/-- The frames of a state stand on suspended ones, the innermost of which goes on at a position. -/
def State.Stands (t : State) (position : Nat) (suspended : List (Bindings × Nat)) : Prop :=
  ∃ above bindings, t.links = above ++ (bindings, position) :: suspended

section Suspended

variable {p : Program} {s : State} {position : Nat} {suspended : List (Bindings × Nat)}

/-- Suspended frames stay as they are until the return that brings their depth back. -/
theorem State.Stands.turn (h : s.Stands position suspended)
    (hr : Event.ret suspended.length ∉ (p.turn s).events) : (p.turn s).state.Stands position suspended := by
  obtain ⟨above, bindings, h⟩ := h
  have hb := bracket_turn p s
  have hr : Event.ret suspended.length ∉ (p.turn s).events.filter Event.isBracket :=
    fun hm => hr (List.mem_filter.1 hm).1
  generalize (p.turn s).events.filter Event.isBracket = events at hb hr
  cases hb with
  | stays current ht =>
    cases above with
    | nil =>
      have hlinks : s.links = (s.frame.bindings, s.frame.returnAddress) :: s.links.tail := rfl
      rw [h] at hlinks ht
      cases hlinks
      exact ⟨[], current, ht⟩
    | cons link above =>
      -- a frame above has changed its variables
      rw [h] at ht
      exact ⟨_ :: above, bindings, ht⟩
  | enters label hd ht =>
    rw [h] at ht
    exact ⟨_ :: above, bindings, ht⟩
  | leaves current hs ht =>
    cases above with
    | nil =>
      -- the callee itself returns, which is the event that is excluded
      have htail := (List.cons.inj (h.symm.trans ht)).2
      rw [htail, State.length_links] at hr
      exact absurd (List.mem_singleton_self _) hr
    | cons link above => exact ⟨above, bindings, (List.cons.inj (h.symm.trans ht)).2.symm⟩

/-- That return goes where the call said, and leaves the stack as it is. -/
theorem State.Stands.ret (h : s.Stands position suspended)
    (hr : Event.ret suspended.length ∈ (p.turn s).events) :
    (p.turn s).state.position = position ∧ (p.turn s).state.links = suspended ∧
      (p.turn s).state.stack = s.stack := by
  obtain ⟨above, bindings, h⟩ := h
  have hb := bracket_turn p s
  have hr : Event.ret suspended.length ∈ (p.turn s).events.filter Event.isBracket :=
    List.mem_filter.2 ⟨hr, rfl⟩
  generalize (p.turn s).events.filter Event.isBracket = events at hb hr
  cases hb with
  | stays => cases hr
  | enters => cases List.mem_singleton.1 hr
  | leaves current hs ht =>
    have hdepth : suspended.length = (p.turn s).state.depth := Event.ret.inj (List.mem_singleton.1 hr)
    rw [h] at ht
    have hlength := congrArg List.length ht
    rw [List.length_append, List.length_cons, List.length_cons, State.length_links] at hlength
    -- the depth that is told leaves room for the callee only
    obtain rfl : above = [] := List.length_eq_zero_iff.1 (by omega)
    obtain ⟨hlink, htail⟩ := List.cons.inj ht
    exact ⟨(congrArg Prod.snd hlink).symm, htail.symm, hs⟩

theorem State.links_call {label : String} {depth : Nat} (hc : Event.call label depth ∈ (p.turn s).events) :
    depth = s.depth + 1 ∧ (p.turn s).state.links = ([], s.position + 1) :: s.links := by
  have hb := bracket_turn p s
  have hc : Event.call label depth ∈ (p.turn s).events.filter Event.isBracket :=
    List.mem_filter.2 ⟨hc, rfl⟩
  generalize (p.turn s).events.filter Event.isBracket = events at hb hc
  cases hb with
  | stays => cases hc
  | enters label' hd ht =>
    obtain ⟨-, hdepth⟩ := Event.call.inj (List.mem_singleton.1 hc)
    refine ⟨?_, ht⟩
    rw [hdepth, ← State.length_links, ht, List.length_cons, State.length_links]
  | leaves => cases List.mem_singleton.1 hc

end Suspended

theorem Program.run_stands (p : Program) (meter : Meter) (n : Nat) {position : Nat}
    {suspended : List (Bindings × Nat)}
    (h : (p.run meter n Event.record []).state.Stands position suspended) (m : Nat)
    (hr : Event.ret suspended.length ∉ (p.run meter (n + m) Event.record []).observed.drop
      (p.run meter n Event.record []).observed.length) :
    (p.run meter (n + m) Event.record []).state.Stands position suspended := by
  induction m with
  | zero => exact h
  | succ m ih =>
    have hlength := (p.run_extends meter (Nat.le_add_right n m)).observed.length_le
    rw [← Nat.add_assoc, run_succ] at hr ⊢
    cases he : (p.run meter (n + m) Event.record []).ending with
    | some ending =>
      rw [Run.next_ended he] at hr ⊢
      exact ih hr
    | none =>
      rw [Run.next_going he, foldl_record] at hr ⊢
      rw [List.drop_append_of_le_length hlength, List.mem_append, not_or] at hr
      exact (ih hr.1).turn hr.2

/-- Calls and returns are well bracketed, and frames are isolated. Every instruction is told with one more
frame than there are open calls, and with no more than the limit allows. A call enters a frame without
variables; until the return that brings its depth back, all frames that it suspends have the variables and
return addresses that they had. That return goes to the instruction behind the call, finds these frames
again, and leaves the operand stack as it is. -/
theorem Program.run_bracketed (p : Program) (meter : Meter) (n : Nat) :
    let run := fun turns => p.run meter turns Event.record []
    Event.Counted meter.depthLimit? (run n).observed ∧
    ∀ label depth, (run n).ending = none → Event.call label depth ∈ (p.turn (run n).state).events →
      let s := (run n).state
      depth = s.depth + 1 ∧ (run (n + 1)).state.frame.bindings = [] ∧
      ∀ m, Event.ret s.depth ∉ (run (n + 1 + m)).observed.drop (run (n + 1)).observed.length →
        let t := (run (n + 1 + m)).state
        (∃ inner, inner ≠ [] ∧ t.links = inner ++ s.links) ∧
        ((run (n + 1 + m)).ending = none → Event.ret s.depth ∈ (p.turn t).events →
          let u := (run (n + 1 + m + 1)).state
          u.position = s.position + 1 ∧ u.links = s.links ∧ u.stack = t.stack) := by
  intro run
  refine ⟨(p.run_counts meter n).told, fun label depth hgoing hcall => ?_⟩
  have hcalled : (run (n + 1)).state = (p.turn (run n).state).state := by
    rw [show run (n + 1) = (run n).next p Event.record from p.run_succ meter n [], Run.next_going hgoing]
  obtain ⟨hdepth, hlinks⟩ := State.links_call hcall
  rw [← hcalled] at hlinks
  refine ⟨hdepth, congrArg Prod.fst (List.cons.inj hlinks).1, fun m hr => ?_⟩
  rw [← State.length_links] at hr ⊢
  have hstands := p.run_stands meter (n + 1) ⟨[], [], hlinks⟩ m hr
  refine ⟨?_, fun hgoing' hret => ?_⟩
  · obtain ⟨above, bindings, h⟩ := hstands
    refine ⟨above ++ [(bindings, (run n).state.position + 1)], by simp, ?_⟩
    rw [List.append_assoc]
    exact h
  · have hnext : (run (n + 1 + m + 1)).state = (p.turn (run (n + 1 + m)).state).state := by
      rw [show run (n + 1 + m + 1) = (run (n + 1 + m)).next p Event.record from
        p.run_succ meter (n + 1 + m) [], Run.next_going hgoing']
    dsimp only
    rw [hnext]
    exact hstands.ret hret

theorem Program.events_turn_eq {p : Program} {meter : Meter} {n : Nat} (before : List Event)
    {events : List Event} (hn : (p.run meter n Event.record []).ending = none)
    (hb : (p.run meter n Event.record []).observed = before)
    (he : (p.run meter (n + 1) Event.record []).observed = before ++ events) :
    (p.turn (p.run meter n Event.record []).state).events = events := by
  rw [run_succ, Run.next_going hn, foldl_record, hb] at he
  exact List.append_cancel_left he

/-- A function that is called where a variable is bound, and returns a value. -/
theorem Program.run_bracketed_function :
    let p : Program := ⟨#[⟨.push, ["3"]⟩, ⟨.pop, ["x"]⟩, ⟨.call, ["f"]⟩, ⟨.ret, ["0"]⟩, ⟨.push, ["5"]⟩,
      ⟨.ret, ["1"]⟩], .ofList [("main", 0), ("f", 4)]⟩
    let s := (p.run .plain 2 Event.record []).state
    let t := (p.run .plain 4 Event.record []).state
    let u := (p.run .plain 5 Event.record []).state
    s.links = [([("x", ⟨0, 0⟩)], 6)] ∧ Event.call "f" 2 ∈ (p.turn s).events ∧
    Event.ret s.depth ∈ (p.turn t).events ∧ (∃ inner, inner ≠ [] ∧ t.links = inner ++ s.links) ∧
    u.position = s.position + 1 ∧ u.links = s.links ∧ u.stack = t.stack := by
  intro p s t u
  have hgoing : (p.run .plain 2 Event.record []).ending = none := by cbv
  have hgoing' : (p.run .plain 4 Event.record []).ending = none := by cbv
  have hlinks : s.links = [([("x", ⟨0, 0⟩)], 6)] := by cbv
  have hdepth : s.depth = 1 := by rw [← s.length_links, hlinks]; rfl
  have hcalled : (p.turn s).events = [.instruction 2 .call 0 1, .call "f" 2] :=
    events_turn_eq [.instruction 0 .push 0 1, .instruction 1 .pop 1 1] hgoing (by cbv) (by cbv)
  have hreturned : (p.turn t).events = [.instruction 5 .ret 1 2, .ret 1] :=
    events_turn_eq [.instruction 0 .push 0 1, .instruction 1 .pop 1 1, .instruction 2 .call 0 1,
      .call "f" 2, .instruction 4 .push 0 2] hgoing' (by cbv) (by cbv)
  have hbetween : (p.run .plain 4 Event.record []).observed.drop
      (p.run .plain 3 Event.record []).observed.length = [.instruction 4 .push 0 2] := by cbv
  have hcall : Event.call "f" 2 ∈ (p.turn s).events := by simp [hcalled]
  have hret : Event.ret s.depth ∈ (p.turn t).events := by simp [hreturned, hdepth]
  have hkept : Event.ret s.depth ∉ (p.run .plain 4 Event.record []).observed.drop
      (p.run .plain 3 Event.record []).observed.length := by simp [hbetween]
  have hcalls := ((run_bracketed p .plain 2).2 "f" 2 hgoing hcall).2.2 1
  simp only [Nat.reduceAdd] at hcalls
  obtain ⟨hinner, hback⟩ := hcalls hkept
  exact ⟨hlinks, hcall, hret, hinner, hback hgoing' hret⟩

end CMinusMinus
