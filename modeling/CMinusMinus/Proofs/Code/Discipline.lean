import CMinusMinus.Proofs.Code.Chart
import CMinusMinus.Proofs.Machine.Turns
import CMinusMinus.Proofs.Source.Names
import Mathlib

/-!
# Runs of generated code keep to their stack

Every state of a run is at a place of the chart: what is on the stack is what was there when the current
function was entered, less its arguments, and the height in the chart. The calls that are not yet finished wait
for what the current one leaves. So statements find the stack as the call found it, no operand is missing, and
a function that is not declared is the only label that is not found.
-/

namespace CMinusMinus

/-! ## Entered functions -/

/-- What an observer of a run knows of the calls. -/
structure Entries where
  /-- The functions that were entered and not left, the current one first, each with the height of the stack
  when it was entered. -/
  live : List (String × Nat)
  /-- The height of the stack at the last instruction. -/
  height : Nat

namespace Entries

/-- Before a run, which starts in the entry on an empty stack. -/
def start : Entries :=
  ⟨[(Program.entryName, 0)], 0⟩

def observe (entries : Entries) : Event → Entries
  | .instruction _ _ stack _ => { entries with height := stack }
  | .call label _ => { entries with live := (label, entries.height) :: entries.live }
  | .ret _ => { entries with live := entries.live.tail }
  | .collection _ _ => entries

theorem observe_afterInstruction (entries : Entries) (s : State) (opcode : Opcode) :
    (s.afterInstruction opcode).1.foldl observe entries = entries := by
  unfold State.afterInstruction
  generalize (if State.isCounted opcode then s.count else s) = t
  dsimp only
  split <;> rfl

end Entries

/-! ## The invariant -/

section Invariant

variable (tree : Tree) (T : Chart)

/-- A function was entered at a height of the stack by the outermost call, or by a call that goes on at the
return address, at the height in the chart, with what the function leaves in the place of its arguments. -/
inductive Waits : Function → Nat → List Nat → List (String × Nat) → Prop where
  | outermost {f : Function} {address : Nat} (hf : tree.function? Program.entryName = some f) :
    Waits f 0 [address] []
  | call {f caller : Function} {entered below address h : Nat} {returns : List Nat}
      {live : List (String × Nat)} (hT : T[address]? = some (caller, some h))
      (hh : below + h + f.params.length = entered + f.left + caller.params.length)
      (hb : caller.params.length ≤ below) (hw : Waits caller below returns live) :
    Waits f entered (address :: returns) ((caller.name, below) :: live)

/-- The current function was entered at a height of the stack with its arguments on it, and the stack has the
height in the chart above what was below them. -/
structure Disciplined (f : Function) (entered h : Nat) (callers : List (String × Nat)) (s : State)
    (entries : Entries) : Prop where
  live : entries.live = (f.name, entered) :: callers
  place : T[s.position]? = some (f, some h)
  height : s.stack.height + f.params.length = entered + h
  arguments : f.params.length ≤ entered
  waits : Waits tree T f entered s.returns callers

/-- A fault that has nothing to do with the stack, or a call of a function that is not declared. -/
def Permitted (p : Program) (fault : Fault) : Prop :=
  fault.cause.isBenign = true ∨ ∃ name k, fault = ⟨.unresolvedLabel name, some k⟩ ∧
    p.instructions[k]? = some ⟨.call, [name]⟩ ∧ tree.function? name = none

/-- What holds of a run that goes on, is completed or has failed. -/
def Orderly (p : Program) (s : State) (entries : Entries) : Option Ending → Prop
  | none => ∃ f entered h callers, Disciplined tree T f entered h callers s entries
  | some .completed => s.position < p.size ∧
    ∃ f, tree.function? Program.entryName = some f ∧ s.stack.height = f.left
  | some (.failed fault) => Permitted tree p fault

end Invariant

section Steps

variable {tree : Tree} {p : Program} {T : Chart} {f : Function} {labels : List String} {h : Nat}
  {b : Option Nat} {i : Instruction}

theorem Tree.name_of_function? {name : String} (hf : tree.function? name = some f) : f.name = name := by
  simpa using List.find?_some hf

theorem effect_ret (f : Function) : (Instruction.ret f.left).effect? = some (f.left, f.left) := by
  have hbound : f.left < Text.countBound := by
    unfold Function.left
    split <;> decide
  simp [Instruction.effect?, Instruction.ret, Text.readCount?_repr hbound]

theorem Suits.effect (hi : Suits tree f labels i h b) :
    ∃ taken left, i.effect? = some (taken, left) ∧ taken ≤ h := by
  cases hi with
  | straight ho he hh => exact ⟨_, _, he, hh⟩
  | test hl => exact ⟨1, 0, rfl, Nat.le_refl 1⟩
  | jump hl => exact ⟨0, 0, rfl, Nat.le_refl 0⟩
  | call hg hh => exact ⟨0, 0, rfl, Nat.zero_le h⟩
  | missing hi hg => exact ⟨0, 0, rfl, Nat.zero_le h⟩
  | ret => exact ⟨f.left, f.left, effect_ret f, Nat.le_refl _⟩

/-- A fault at a place of the chart is permitted. -/
theorem Suits.permitted (hp : tree.LaidOut p) {k : Nat} (hi : Suits tree f labels i h b)
    (hget : p.instructions[k]? = some i)
    (hlabels : ∀ label ∈ labels, ∃ target, p.labels.get? label = some target ∧
      T[target]? = some (f, some 0))
    {cause : Fault.Cause} (hfair : cause.Fair p i) : Permitted tree p ⟨cause, some k⟩ := by
  rcases hfair with hbenign | ⟨label, rfl, hnone, hshape⟩
  · exact .inl hbenign
  -- Functions that are declared are found, and so are the labels of the current one.
  · have hmissing : ∀ {g}, tree.function? label = some g → False := by
      intro g hg
      obtain ⟨l, next, rest, hl, -⟩ := hp.declared g (List.mem_of_find?_eq_some hg)
      rw [Tree.name_of_function? hg, hnone] at hl
      cases hl
    have hfound : label ∈ labels → False := by
      intro hm
      obtain ⟨target, hl, -⟩ := hlabels label hm
      rw [hnone] at hl
      cases hl
    rcases hshape with rfl | rfl | rfl
    · cases hi with
      | straight ho => cases ho
      | test hl => exact (hfound hl).elim
    · cases hi with
      | straight ho => cases ho
      | jump hl => exact (hfound hl).elim
    · cases hi with
      | straight ho => cases ho
      | call hg => exact (hmissing hg).elim
      | missing hi hg => exact .inr ⟨label, k, rfl, hget, hg⟩

end Steps

/-! ## Control -/

section Control

variable {tree : Tree} {p : Program} {T : Chart} {f : Function} {labels : List String} {entered h : Nat}
  {b : Option Nat} {i : Instruction} {callers : List (String × Nat)} {s u : State} {entries : Entries}
  {taken left : Nat}

theorem Disciplined.next (hs : Disciplined tree T f entered h callers s entries)
    (hi : Suits tree f labels i h b) (he : i.effect? = some (taken, left))
    (hnext : ∀ h', b = some h' → T[s.position + 1]? = some (f, some h'))
    (hj : i.opcode ≠ .jmp) (hr : i.opcode ≠ .ret) (hc : i.opcode ≠ .call)
    (hposition : u.position = s.position + 1) (hreturns : u.returns = s.returns)
    (hheight : u.stack.height = s.stack.height - taken + left) :
    ∃ h', Disciplined tree T f entered h' callers u { entries with height := s.stack.height } := by
  have hlevel := hs.height
  have harguments := hs.arguments
  have hbehind : taken ≤ h ∧ b = some (h - taken + left) := by
    cases hi with
    | straight ho he' hh =>
      rw [he] at he'
      cases he'
      exact ⟨hh, rfl⟩
    | test hl =>
      cases he
      exact ⟨Nat.le_refl 1, rfl⟩
    | jump hl => exact absurd rfl hj
    | call hg hh => exact absurd rfl hc
    | missing hi hg => exact absurd rfl hc
    | ret => exact absurd rfl hr
  obtain ⟨htaken, rfl⟩ := hbehind
  refine ⟨h - taken + left, hs.live, ?_, by omega, harguments, ?_⟩
  · rw [hposition]
    exact hnext _ rfl
  · rw [hreturns]
    exact hs.waits

theorem Disciplined.jump (hs : Disciplined tree T f entered h callers s entries)
    (hi : Suits tree f labels i h b) (he : i.effect? = some (taken, left))
    (hlabels : ∀ label ∈ labels, ∃ target, p.labels.get? label = some target ∧
      T[target]? = some (f, some 0))
    {label : String} {target : Nat} (ha : i.args = [label]) (ho : i.opcode = .jz ∨ i.opcode = .jmp)
    (ht : p.labels.get? label = some target)
    (hposition : u.position = target) (hreturns : u.returns = s.returns)
    (hheight : u.stack.height = s.stack.height - taken + left) :
    Disciplined tree T f entered 0 callers u { entries with height := s.stack.height } := by
  have hlevel := hs.height
  have harguments := hs.arguments
  have htarget : label ∈ labels ∧ h = taken ∧ left = 0 := by
    cases hi with
    | straight hstraight =>
      rcases ho with ho | ho
      · exact absurd ho (Opcode.ne_of_isStraight hstraight rfl)
      · exact absurd ho (Opcode.ne_of_isStraight hstraight rfl)
    | test hl =>
      cases ha
      cases he
      exact ⟨hl, rfl, rfl⟩
    | jump hl =>
      cases ha
      cases he
      exact ⟨hl, rfl, rfl⟩
    | call hg hh => simp at ho
    | missing hi hg => simp at ho
    | ret => simp [Instruction.ret] at ho
  obtain ⟨hm, rfl, rfl⟩ := htarget
  obtain ⟨target', ht', hT⟩ := hlabels label hm
  rw [ht] at ht'
  cases ht'
  refine ⟨hs.live, ?_, by omega, harguments, ?_⟩
  · rw [hposition]
    exact hT
  · rw [hreturns]
    exact hs.waits

/-- Control enters a function, which finds its arguments on the stack. -/
theorem Disciplined.enter (hp : tree.LaidOut p) (hT : Charts tree p T 0 0 tree.functions)
    (hs : Disciplined tree T f entered h callers s entries)
    (hi : Suits tree f labels i h b) (he : i.effect? = some (taken, left))
    (hnext : ∀ h', b = some h' → T[s.position + 1]? = some (f, some h'))
    {label : String} {target : Nat} (ha : i.args = [label]) (ho : i.opcode = .call)
    (ht : p.labels.get? label = some target)
    (hposition : u.position = target) (hreturns : u.returns = (s.position + 1) :: s.returns)
    (hheight : u.stack.height = s.stack.height - taken + left) :
    ∃ g, Disciplined tree T g s.stack.height g.params.length ((f.name, entered) :: callers) u
      ⟨(label, s.stack.height) :: entries.live, s.stack.height⟩ := by
  have hlevel := hs.height
  have harguments := hs.arguments
  have hcall : ∃ g, tree.function? label = some g ∧ g.params.length ≤ h ∧
      b = some (h - g.params.length + g.left) ∧ taken = 0 ∧ left = 0 := by
    cases hi with
    | straight hstraight => exact absurd ho (Opcode.ne_of_isStraight hstraight rfl)
    | test hl => cases ho
    | jump hl => cases ho
    | call hg hh =>
      cases ha
      cases he
      exact ⟨_, hg, hh, rfl, rfl, rfl⟩
    | missing hi hg =>
      cases ha
      rw [hp.undeclared label hi hg] at ht
      cases ht
    | ret => cases ho
  obtain ⟨g, hg, hparams, rfl, rfl, rfl⟩ := hcall
  have hname := Tree.name_of_function? hg
  obtain ⟨target', ht', hentry⟩ := hT.entry g (List.mem_of_find?_eq_some hg)
  rw [hname, ht] at ht'
  cases ht'
  refine ⟨g, ?_, ?_, by omega, by omega, ?_⟩
  · rw [hs.live, hname]
  · rw [hposition]
    exact hentry
  · rw [hreturns]
    exact .call (hnext _ rfl) (by omega) harguments hs.waits

/-- A return stands where the stack holds what the function leaves. -/
theorem Suits.returns (hi : Suits tree f labels i h b) (he : i.effect? = some (taken, left))
    (ho : i.opcode = .ret) : h = f.left ∧ taken = f.left ∧ left = f.left := by
  cases hi with
  | straight hstraight => exact absurd ho (Opcode.ne_of_isStraight hstraight rfl)
  | test hl => cases ho
  | jump hl => cases ho
  | call hg hh => cases ho
  | missing hi hg => cases ho
  | ret =>
    rw [effect_ret] at he
    cases he
    exact ⟨rfl, rfl, rfl⟩

theorem State.returns_ne_nil (s : State) : s.returns ≠ [] :=
  List.cons_ne_nil _ _

/-- Control leaves a function, and the caller goes on with what the function leaves. -/
theorem Disciplined.leave (hs : Disciplined tree T f entered h callers s entries)
    (hi : Suits tree f labels i h b) (he : i.effect? = some (taken, left)) (ho : i.opcode = .ret)
    {target : Nat} (hbefore : s.returns = target :: u.returns) (hposition : u.position = target)
    (hheight : u.stack.height = s.stack.height - taken + left) :
    ∃ caller below h' rest, Disciplined tree T caller below h' rest u
      ⟨entries.live.tail, s.stack.height⟩ := by
  have hlevel := hs.height
  have harguments := hs.arguments
  obtain ⟨rfl, rfl, rfl⟩ := hi.returns he ho
  have hwaits := hs.waits
  rw [hbefore] at hwaits
  -- The outermost call has no return address but its own, and here the caller's follows.
  generalize hafter : u.returns = after at hwaits
  cases hwaits with
  | outermost hf => exact absurd hafter u.returns_ne_nil
  | call hT hh hb hw =>
    rw [← hposition] at hT
    rw [← hafter] at hw
    refine ⟨_, _, _, _, ?_, hT, by omega, hb, hw⟩
    rw [hs.live]
    rfl

/-- The outermost call ends with what the entry leaves. -/
theorem Disciplined.halt (hs : Disciplined tree T f entered h callers s entries)
    (hi : Suits tree f labels i h b) (he : i.effect? = some (taken, left)) (ho : i.opcode = .ret)
    {target : Nat} (hbefore : s.returns = [target])
    (hheight : u.stack.height = s.stack.height - taken + left) :
    ∃ f, tree.function? Program.entryName = some f ∧ u.stack.height = f.left := by
  have hlevel := hs.height
  have harguments := hs.arguments
  obtain ⟨rfl, rfl, rfl⟩ := hi.returns he ho
  have hwaits := hs.waits
  rw [hbefore] at hwaits
  cases hwaits with
  | outermost hf => exact ⟨f, hf, by omega⟩
  | call hT hh hb hw => cases hw

end Control

/-! ## Runs -/

section Runs

variable {tree : Tree} {p : Program} {T : Chart}

theorem orderly_turn (hp : tree.LaidOut p) (hT : Charts tree p T 0 0 tree.functions) {s : State}
    {entries : Entries} (hs : Orderly tree T p s entries none) :
    Orderly tree T p (p.turn s).state ((p.turn s).events.foldl Entries.observe entries)
      (p.turn s).ending := by
  obtain ⟨f, entered, h, callers, hs⟩ := hs
  have hlevel := hs.height
  have harguments := hs.arguments
  obtain ⟨i, b, labels, hget, hi, hnext, hlabels⟩ := hT.leads (Nat.zero_le _) hs.place
  obtain ⟨taken, left, he, htaken⟩ := hi.effect
  have hmoves := Instruction.moves (p := p) he (s.stack.height - taken) s (by omega)
  unfold Program.turn
  rw [hget]
  dsimp only
  cases hr : (i.execute p).run s with
  | error cause t =>
    rw [hr] at hmoves
    exact hi.permitted hp hget hlabels hmoves
  | ok control t =>
    rw [hr] at hmoves
    -- What follows the instruction, a collection perhaps, touches neither stack nor frames.
    obtain ⟨hposition, hflow⟩ := Instruction.flow hr
    obtain ⟨hposition', hreturns⟩ := t.position_afterInstruction i.opcode
    have hheight := congrArg Stack.height (t.stack_afterInstruction i.opcode)
    rw [hmoves] at hheight
    rw [← hreturns] at hflow
    rw [hposition] at hposition'
    simp only [List.foldl_cons, List.foldl_append, Entries.observe_afterInstruction]
    generalize (t.afterInstruction i.opcode).2 = u at hflow hposition' hheight
    generalize hbefore : s.returns = before at hflow
    generalize hafter : u.returns = after at hflow
    cases hflow with
    | next hj hret hc =>
      obtain ⟨h', hu⟩ := hs.next (u := { u with position := u.position + 1 }) hi he hnext hj hret hc
        (congrArg (· + 1) hposition') (hafter.trans hbefore.symm) hheight
      exact ⟨_, _, _, _, hu⟩
    | jump ha ho ht =>
      exact ⟨_, _, _, _, hs.jump hi he hlabels ha ho ht rfl (hafter.trans hbefore.symm) hheight⟩
    | @enter _ label target ha ho ht =>
      rw [← hbefore] at hafter
      obtain ⟨g, hu⟩ := hs.enter (u := { u with position := target }) hp hT hi he hnext ha ho ht rfl
        hafter hheight
      exact ⟨g, _, _, _, hu⟩
    | @leave _ target ho =>
      rw [← hafter] at hbefore
      exact hs.leave (u := { u with position := target }) hi he ho hbefore rfl hheight
    | halt ho =>
      refine ⟨?_, hs.halt hi he ho hbefore hheight⟩
      show u.position < p.size
      rw [hposition']
      exact (Array.getElem?_eq_some_iff.1 hget).1

theorem orderly_runFrom (hp : tree.LaidOut p) (hT : Charts tree p T 0 0 tree.functions) (turns : Nat)
    {s : State} {entries : Entries} (hs : Orderly tree T p s entries none) :
    Orderly tree T p (p.runFrom Entries.observe turns s entries).state
      (p.runFrom Entries.observe turns s entries).observed
      (p.runFrom Entries.observe turns s entries).ending := by
  induction turns generalizing s entries with
  | zero => exact hs
  | succ turns ih =>
    have hturn := orderly_turn hp hT hs
    rw [Program.runFrom]
    cases he : (p.turn s).ending with
    | none =>
      rw [he] at hturn
      exact ih hturn
    | some ending =>
      rw [he] at hturn
      exact hturn

theorem orderly_run (hp : tree.LaidOut p) (hT : Charts tree p T 0 0 tree.functions) {main : Function}
    (hm : tree.function? Program.entryName = some main) (hparams : main.params = []) (meter : Meter)
    (turns : Nat) : Orderly tree T p (p.run meter turns Entries.observe Entries.start).state
      (p.run meter turns Entries.observe Entries.start).observed
      (p.run meter turns Entries.observe Entries.start).ending := by
  have hname := Tree.name_of_function? hm
  obtain ⟨entry, hentry, hplace⟩ := hT.entry main (List.mem_of_find?_eq_some hm)
  rw [hname] at hentry
  rw [hparams] at hplace
  have hrun : p.run meter turns Entries.observe Entries.start =
      p.runFrom Entries.observe turns (p.initial entry meter) Entries.start := by
    unfold Program.run Program.entry?
    rw [hentry]
  have hstart : Disciplined tree T main 0 0 [] (p.initial entry meter) Entries.start := by
    refine ⟨?_, hplace, ?_, ?_, .outermost hm⟩
    · rw [hname]
      rfl
    · rw [hparams]
      rfl
    · rw [hparams]
      exact Nat.le_refl 0
  rw [hrun]
  exact orderly_runFrom hp hT turns ⟨main, 0, 0, [], hstart⟩

/-- A permitted fault is neither an underflow nor about the form of an instruction, and a label that it misses
is that of a function that is not declared. -/
theorem Permitted.kind {fault : Fault} (h : Permitted tree p fault) :
    fault.cause.kind ≠ .stackUnderflow ∧ fault.cause.kind ≠ .invalidInstruction ∧
    (fault.cause.kind = .unresolvedLabel → ∃ name k, fault = ⟨.unresolvedLabel name, some k⟩ ∧
      p.instructions[k]? = some ⟨.call, [name]⟩ ∧ tree.function? name = none) := by
  rcases h with hbenign | ⟨name, k, rfl, hget, hnone⟩
  · obtain ⟨cause, position⟩ := fault
    cases cause with
    | underflow | arity | badCount | unresolvedLabel => cases hbenign
    | limit error => cases error <;> simp [Fault.Cause.kind]
    | _ => simp [Fault.Cause.kind]
  · exact ⟨by simp [Fault.Cause.kind], by simp [Fault.Cause.kind], fun _ => ⟨name, k, rfl, hget, hnone⟩⟩

/-- Where a statement starts, the stack is as high as when the current function was entered, less its
arguments. -/
theorem Disciplined.start {f : Function} {entered h : Nat} {callers : List (String × Nat)} {s : State}
    {entries : Entries} (hT : Charts tree p T 0 0 tree.functions)
    (hs : Disciplined tree T f entered h callers s entries) {g : Function} {start : Start}
    (hstart : (g, start) ∈ tree.starts) (hposition : s.position = start.position) :
    entries.live = (g.name, entered) :: callers ∧ s.stack.height + g.params.length = entered := by
  obtain ⟨-, a, ha, hlevel⟩ := hT.starts _ hstart
  -- The chart has one function and one height there.
  have hplace := hs.place
  rw [hposition, ha] at hplace
  cases hplace
  have hzero : h = 0 := by
    rcases hlevel with hlevel | hlevel
    · cases hlevel
    · exact Option.some.inj hlevel
  subst hzero
  exact ⟨hs.live, hs.height⟩

end Runs

/-- The code of a regular tree stands at the start of its program. -/
theorem Tree.compile_ok {source : String} {tree : Tree} {p : Program} (hparse : parse source = .ok tree)
    (hcompile : tree.compile = .ok p) (hregular : tree.Regular) :
    tree.LaidOut p ∧ p.Located 0 tree.lines ∧
      ∀ f ∈ tree.functions, Stmt.allOf (Expr.fits tree) (Call.fits tree) f.body = true := by
  have hnamed := isNamed_of_parse hparse
  rw [Tree.isNamed, Bool.and_eq_true, List.all_eq_true] at hnamed
  obtain ⟨hcheck, rfl⟩ := Tree.compile_eq_ok hcompile
  obtain ⟨hnodup, hmeasured⟩ := Tree.check_ok hcheck
  have hfits := Tree.all_and hnamed.1 (Tree.all_and hmeasured hregular.calls)
  rw [Tree.all, List.all_eq_true] at hfits
  have hlabels := nodup_functionLines tree.yields 0 hnodup fun f hf => generatedLabel_ne (hnamed.2 f hf)
  exact ⟨laidOut_generate hnodup hnamed.2, Program.located_ofLines hlabels, hfits⟩

/-- Generated code keeps to its stack. Where the code of a statement starts, the stack is as high as when the
current function was entered, less its arguments. No run fails for want of an operand or for the form of an
instruction, and only a call of a function that is not declared misses a label. Control does not leave the
program, and a run that is completed leaves one value if `main` has a `return`, and none otherwise. -/
theorem Tree.run_disciplined {source : String} {tree : Tree} {p : Program}
    (hparse : parse source = .ok tree) (hcompile : tree.compile = .ok p) (hregular : tree.Regular)
    (meter : Meter) (turns : Nat) :
    let run := p.run meter turns Entries.observe Entries.start
    (∀ f start, (f, start) ∈ tree.starts →
      (∃ next rest, p.Located start.position (start.stmt.lines tree.yields next rest)) ∧
      (run.ending = none → run.state.position = start.position →
        ∃ entered callers, run.observed.live = (f.name, entered) :: callers ∧
          run.state.stack.height + f.params.length = entered)) ∧
    (run.ending = none → run.state.position < p.size) ∧
    (∀ fault, run.ending = some (.failed fault) → fault.cause.kind ≠ .stackUnderflow ∧
      fault.cause.kind ≠ .invalidInstruction ∧
      (fault.cause.kind = .unresolvedLabel → ∃ name k, fault = ⟨.unresolvedLabel name, some k⟩ ∧
        p.instructions[k]? = some ⟨.call, [name]⟩ ∧ tree.function? name = none)) ∧
    (run.ending = some .completed → run.state.position < p.size ∧
      ∃ main, tree.function? Program.entryName = some main ∧
        run.state.stack.height = if main.yields then 1 else 0) := by
  intro run
  obtain ⟨hp, hlines, hfits⟩ := Tree.compile_ok hparse hcompile hregular
  obtain ⟨T, hT⟩ := @exists_charts tree p tree.functions hfits 0 [] hlines
  obtain ⟨main, hm, hparams⟩ := hregular.entry
  have horderly : Orderly tree T p run.state run.observed run.ending :=
    orderly_run hp hT hm hparams meter turns
  refine ⟨fun f start hstart => ⟨(hT.starts _ hstart).1, fun hnone hposition => ?_⟩, fun hnone => ?_,
    fun fault hfault => ?_, fun hcompleted => ?_⟩
  · rw [hnone] at horderly
    obtain ⟨g, entered, h, callers, hs⟩ := horderly
    exact ⟨entered, callers, hs.start hT hstart hposition⟩
  · rw [hnone] at horderly
    obtain ⟨f, entered, h, callers, hs⟩ := horderly
    obtain ⟨i, b, labels, hget, -⟩ := hT.leads (Nat.zero_le _) hs.place
    exact (Array.getElem?_eq_some_iff.1 hget).1
  · rw [hfault] at horderly
    exact Permitted.kind horderly
  · rw [hcompleted] at horderly
    exact horderly

/-- The function `half(n) { return n / 2; }`. -/
def halfFunction : Function :=
  ⟨"half", ["n"], [.ret (.binary .div (.place "n" [] ⟨1, 18⟩) (.int 2))], ⟨1, 1⟩⟩

/-- A program that calls the function inside an operand. -/
def halfTree : Tree :=
  ⟨[halfFunction,
    ⟨"main", [], [.print (.binary .add (.int 1) (.call "half" [.int 9] ⟨1, 46⟩))], ⟨1, 27⟩⟩]⟩

/-- A run of the program up to the `return`. -/
def halfRun : Run Entries :=
  halfTree.generate.run .plain 4 Entries.observe Entries.start

set_option maxRecDepth 4000 in
/-- At the `return` the argument has been taken from the stack. -/
theorem Tree.run_disciplined_half :
    parse "half(n) { return n / 2; } main() { print 1 + half(9); }" = .ok halfTree ∧
    halfTree.compile = .ok halfTree.generate ∧ halfTree.Regular ∧ halfRun.ending = none ∧
    halfRun.state.position = 1 ∧ (∃ stmt, (halfFunction, ⟨1, stmt⟩) ∈ halfTree.starts) ∧
    ∃ entered callers, halfRun.observed.live = ("half", entered) :: callers ∧
      halfRun.state.stack.height + 1 = entered := by
  have hparse : parse "half(n) { return n / 2; } main() { print 1 + half(9); }" = .ok halfTree := by
    cbv
  have hcompile : halfTree.compile = .ok halfTree.generate := rfl
  have hregular : halfTree.Regular := ⟨⟨_, rfl, rfl⟩, by decide⟩
  have hnone : halfRun.ending = none := by cbv
  have hposition : halfRun.state.position = 1 := by cbv
  have hstart : (halfFunction, ⟨1, _⟩) ∈ halfTree.starts := List.mem_cons_self ..
  obtain ⟨hstarts, -, -, -⟩ := run_disciplined hparse hcompile hregular .plain 4
  exact ⟨hparse, hcompile, hregular, hnone, hposition, ⟨_, hstart⟩,
    (hstarts halfFunction _ hstart).2 hnone hposition⟩

end CMinusMinus
