import CMinusMinus.Proofs.Ideal.Simulation
import CMinusMinus.Proofs.Machine.Turns

/-!
# Runs in lockstep

Every instruction of the machine follows the same instruction of the one without a heap, and a collection
leaves the picture as it is, so whole runs follow each other.
-/

namespace CMinusMinus

/-! ## Instructions -/

section Instructions

variable {limited : Bool}

theorem simulates_pushArgument (arg : String) :
    Simulates limited Anything (Action.pushArgument arg) (Ideal.pushArgument arg)
      fun _ _ => Anything := by
  unfold Action.pushArgument Ideal.pushArgument
  cases Text.readInt? arg with
  | some value => exact simulates_pushInt value
  | none =>
    exact (simulates_lookup arg).bind fun h datum => simulates_push.imp fun _ _ _ hd => hd.2

theorem simulates_applyOperator (opcode : Opcode) (op : BinaryOp) :
    Simulates limited Anything (Action.applyOperator opcode op) (Ideal.applyOperator opcode op)
      fun _ _ => Anything := by
  refine (simulates_popPair opcode).bind fun x y => ?_
  refine (simulates_intOf opcode.name fun _ _ _ h => h.1).bind (Simulates.ofEq fun a => ?_)
  refine (simulates_intOf opcode.name fun _ _ _ h => h.2).bind (Simulates.ofEq fun b => ?_)
  cases op.apply a b with
  | ok value => exact (simulates_pushInt value).imp fun _ _ _ _ => trivial
  | error e => exact Simulates.throw _

theorem simulates_negate :
    Simulates limited Anything Action.negate Ideal.negate fun _ _ => Anything := by
  refine (simulates_pop .neg).bind fun h datum => ?_
  refine (simulates_intOf _ fun _ _ _ h => h).bind (Simulates.ofEq fun a => ?_)
  exact (simulates_pushInt (-a)).imp fun _ _ _ _ => trivial

theorem checkArrayLength_unfreed (length : Nat) (m : Meter) :
    m.unfreed.checkArrayLength length = m.checkArrayLength length := by
  cases m <;> rfl

theorem checkDepth_unfreed (depth : Nat) (m : Meter) :
    m.unfreed.checkDepth depth = m.checkDepth depth := by
  cases m <;> rfl

theorem excused_noRoom (length : Nat) (name : String) :
    (Fault.Cause.noRoom length name).Excused false :=
  .inr rfl

/-- A new array follows the check that there is room for its elements. -/
theorem simulates_newArray (name : String) (length : Nat) :
    Simulates limited Anything
      (if length ≥ Heap.arrayBound then throw (.noRoom length name) else do
        let zero ← Action.allocate (.int 0)
        let array ← Action.allocate (.array (Array.replicate length zero))
        Action.bind name array)
      (do Ideal.checkRoom length name; Ideal.newArray name length) fun _ _ => Anything := by
  have hnew : Simulates limited Anything
      (do
        let zero ← Action.allocate (.int 0)
        let array ← Action.allocate (.array (Array.replicate length zero))
        Action.bind name array)
      (Ideal.newArray name length) fun _ _ => Anything := by
    refine (simulates_allocateInt 0).bind fun zero _ => ?_
    refine (simulates_allocateArray.imp fun address s t hz => ⟨fun x hx => ?_, ?_⟩).bind fun _ _ =>
      simulates_bind name
    · rw [Array.eq_of_mem_replicate hx]
      exact hz.1
    · rw [Array.toList_replicate, List.map_replicate, ← hz.2]
  intro address s t hp _
  rw [EStateM.run_bind, Ideal.run_checkRoom, hp.meter]
  by_cases hl : length ≥ Heap.arrayBound
  · rw [if_pos hl]
    cases limited with
    | true =>
      simp only [hl, and_true, if_true, Option.isSome_some]
      exact follows_error hp _
    | false => exact follows_excused (excused_noRoom length name) _
  · rw [if_neg hl, if_neg fun h => hl h.2]
    exact hnew address s t hp trivial

theorem simulates_makeArray (name : String) :
    Simulates limited Anything (Action.makeArray name) (Ideal.makeArray name)
      fun _ _ => Anything := by
  refine (simulates_pop .array).bind fun h datum => ?_
  refine (simulates_intOf _ fun _ _ _ h => h).bind (Simulates.ofEq fun size => ?_)
  split
  · exact Simulates.throw _
  · refine (simulates_check (checkArrayLength_unfreed _)).bind fun _ _ => ?_
    exact (simulates_newArray name _).imp fun _ _ _ _ => trivial

theorem simulates_readElement (name : String) :
    Simulates limited Anything (Action.readElement name) (Ideal.readElement name)
      fun _ _ => Anything := by
  refine (simulates_pop .access).bind fun h datum => (simulates_lookup name).bind fun x y => ?_
  refine (simulates_elementsOf _ fun _ _ _ h => h.2).bind fun elements place => ?_
  refine simulates_elementsAt (fun _ _ _ h => h.2) fun data hl => ?_
  refine (simulates_elementIndex name hl fun _ _ _ h => h.1.1.1).bind (Simulates.ofEq fun index => ?_)
  by_cases hi : index < elements.size
  · have hi' : index < data.length := hl ▸ hi
    rw [dif_pos hi, dif_pos hi']
    intro address s t hp h
    exact simulates_push address s t hp (stands_element hp h.1.2.1 h.2 hi hi')
  · rw [dif_neg hi, dif_neg (hl ▸ hi)]
    exact Simulates.pure fun _ _ _ _ => trivial

theorem simulates_writeElement (name : String) :
    Simulates limited Anything (Action.writeElement name) (Ideal.writeElement name)
      fun _ _ => Anything := by
  refine (simulates_popPair .pop).bind fun x y => (simulates_lookup name).bind fun array target => ?_
  refine (simulates_elementsOf _ fun _ _ _ h => h.2).bind fun elements place => ?_
  refine simulates_elementsAt (fun _ _ _ h => h.2) fun data hl => ?_
  refine (simulates_elementIndex name hl fun _ _ _ h => h.1.1.1.2).bind
    (Simulates.ofEq fun index => ?_)
  exact (simulates_setElement index).imp fun _ _ _ h => ⟨h.1.1.1.1, h.1.2⟩

theorem simulates_pushLength (name : String) :
    Simulates limited Anything (Action.pushLength name) (Ideal.pushLength name)
      fun _ _ => Anything := by
  refine (simulates_lookup name).bind fun x y => ?_
  refine (simulates_elementsOf _ fun _ _ _ h => h.2).bind fun elements place => ?_
  refine simulates_elementsAt (fun _ _ _ h => h.2) fun data hl => ?_
  rw [hl]
  exact (simulates_pushInt _).imp fun _ _ _ _ => trivial

/-! ### Control -/

/-- Control goes to the same place. -/
abbrev Same : Control → Control → Relation := fun c d _ _ _ => c = d

theorem simulates_jumpIfZero (p : Program) (label : String) :
    Simulates limited Anything (Action.jumpIfZero p label) (Ideal.jumpIfZero p label) Same := by
  refine (simulates_resolve p label).bind (Simulates.ofEq fun target => ?_)
  refine (simulates_pop .jz).bind fun h datum => ?_
  refine (simulates_intOf _ fun _ _ _ h => h).bind (Simulates.ofEq fun value => ?_)
  exact Simulates.pure fun _ _ _ _ => rfl

theorem simulates_enter (p : Program) (label : String) :
    Simulates limited Anything (Action.enter p label) (Ideal.enter p label) Same := by
  intro address s t hp _
  have hs := Action.sound_enter p label s ⟨hp.intact, trivial⟩
  have hdepth : t.callers.length + 1 = s.depth := by
    rw [hp.callers, List.length_map, ← s.callers.height_eq, State.depth]
  rw [Action.run_enter] at hs ⊢
  rw [Ideal.run_enter, hdepth]
  have hmeter := hp.meter
  cases hl : p.labels.get? label with
  | none => exact follows_error hp _
  | some target =>
    rw [hl] at hs
    have hentered : State.Intact
        { s with frame := .entered (s.position + 1), callers := s.callers.push s.frame } →
        Picture limited address
          { s with frame := .entered (s.position + 1), callers := s.callers.push s.frame }
          { t with frame := ⟨[], t.position + 1⟩, callers := t.frame :: t.callers } := by
      intro hi
      refine ⟨hi, hp.heap, hp.meter, hp.stack, ?_, ?_, hp.position, hp.output⟩
      · rw [hp.position]
        rfl
      · rw [hp.frame, hp.callers]
        rfl
    cases limited with
    | true =>
      simp only [hmeter, if_true, Option.map_some, checkDepth_unfreed]
      cases hd : s.meter.checkDepth s.depth with
      | ok =>
        simp only [hd] at hs
        have hpicture := hentered hs.1
        simp only [hmeter] at hpicture
        exact ⟨address, hpicture, rfl⟩
      | error e => exact follows_error hp _
    | false =>
      simp only [hmeter]
      cases hd : s.meter.checkDepth s.depth with
      | ok =>
        simp only [hd] at hs
        have hpicture := hentered hs.1
        simp only [hmeter] at hpicture
        exact ⟨address, hpicture, rfl⟩
      | error e => exact follows_excused (excused_limit e) _

theorem simulates_leave (count : String) :
    Simulates limited Anything (Action.leave count) (Ideal.leave count) Same := by
  intro address s t hp _
  have hs := Action.sound_leave count s ⟨hp.intact, trivial⟩
  have hheight : t.stack.length = s.stack.height := by
    rw [hp.stack, List.length_map, s.stack.height_eq]
  rw [Action.run_leave] at hs ⊢
  rw [Ideal.run_leave, hheight, hp.callers]
  cases hc : Text.readCount? count with
  | none => exact follows_error hp _
  | some count =>
    simp only [hc] at hs
    cases hpop : s.callers.pop? with
    | none =>
      rw [Stack.pop?_eq_none_iff.1 hpop]
      exact ⟨address, hp, rfl⟩
    | some popped =>
      obtain ⟨caller, callers⟩ := popped
      simp only [hpop] at hs
      rw [Stack.pop?_eq_some_iff.1 hpop]
      simp only [Stack.items_push, List.map_cons]
      by_cases hlt : s.stack.height < count
      · rw [if_pos hlt, if_pos hlt]
        exact follows_error hp _
      · rw [if_neg hlt] at hs ⊢
        rw [if_neg hlt]
        refine ⟨address, ⟨hs.1, hp.heap, hp.meter, hp.stack, rfl, rfl, hp.position, hp.output⟩, ?_⟩
        rw [hp.frame]
        rfl

theorem Simulates.next {P : Relation} {a : Action Unit} {b : Ideal.Action Unit}
    {Q : Unit → Unit → Relation} (h : Simulates limited P a b Q) :
    Simulates limited P (a >>= fun _ => Pure.pure Control.next)
      (b >>= fun _ => Pure.pure Control.next) Same :=
  h.bind fun _ _ => Simulates.pure fun _ _ _ _ => rfl

/-- Every instruction follows itself. -/
theorem simulates_execute (i : Instruction) (p : Program) :
    Simulates limited Anything (i.execute p) (Ideal.execute i p) Same := by
  obtain ⟨opcode, args⟩ := i
  unfold Instruction.execute
  split
  case h_15 =>
    unfold Ideal.execute
    split
    case h_15 => exact Simulates.throw _
    all_goals simp_all
  all_goals
    rename_i ho ha
    dsimp only at ho ha
    subst ho ha
  · exact (simulates_pushArgument _).next
  · have hpop : Simulates limited Anything (discard (Action.pop .pop)) (discard (Ideal.pop .pop))
        fun _ _ => Anything :=
      (simulates_pop _).bind fun _ _ => Simulates.pure fun _ _ _ _ => trivial
    exact hpop.next
  · exact (simulates_pop _).bind fun _ _ => (simulates_bind _).next
  · exact (simulates_writeElement _).next
  · exact (simulates_pop _).bind fun _ _ => simulates_print.next
  · exact simulates_negate.next
  · exact (simulates_applyOperator _ _).next
  · exact simulates_jumpIfZero p _
  · exact (simulates_resolve p _).bind
      (Simulates.ofEq fun _ => Simulates.pure (P := Anything) fun _ _ _ _ => rfl)
  · exact simulates_enter p _
  · exact simulates_leave _
  · exact (simulates_makeArray _).next
  · exact (simulates_readElement _).next
  · exact (simulates_pushLength _).next

end Instructions

/-! ## Collections -/

section Runs

variable {limited : Bool} {address : Nat → Nat} {s : State} {t : Ideal.State}

theorem unfreed_free (m : Meter) (count : Nat) : (m.free count).unfreed = m.unfreed := by
  cases m <;> rfl

/-- A collection is not seen in the picture. -/
theorem Picture.collect (hp : Picture limited address s t) :
    Picture limited address s.collect.2 t := by
  have hc := Heap.closed_mark s.heap s.roots
  have hkeep : ∀ h, Heap.isMarked (s.heap.mark s.roots.toArray) h.index = true →
      s.collect.2.heap.datum address h = s.heap.datum address h :=
    fun h hm => Heap.datum_congr (Heap.get?_collected hm) rfl
  have hstack : ∀ h ∈ s.stack.items, s.collect.2.heap.datum address h = s.heap.datum address h :=
    fun h hh => hkeep h (hc.roots h (List.mem_append_left _ hh) (hp.intact.stack h hh))
  have hframe : ∀ frame ∈ s.frames,
      (frame.prune (s.heap.mark s.roots.toArray)).picture s.collect.2.heap address =
        frame.picture s.heap address := by
    intro frame hf
    simp only [Frame.picture, Frame.prune, Ideal.Frame.mk.injEq, and_true]
    refine List.map_congr_left fun b hb => congrArg _ (hkeep b.2 (hc.roots b.2 ?_ ?_))
    · exact List.mem_append_right _ (List.mem_flatMap.2 ⟨frame, hf, List.mem_map.2 ⟨b, hb, rfl⟩⟩)
    · exact (hp.intact.frames frame hf).bindings b hb
  refine ⟨hp.intact.collect, ⟨fun i elements hv => ?_, fun i j elements elements' hi hj => ?_⟩, ?_,
    ?_, ?_, ?_, hp.position, hp.output⟩
  · obtain ⟨hm, hv⟩ := Heap.valueAt?_collected hv
    rw [hp.heap.arrays i elements hv]
    refine congrArg some (List.map_congr_left fun h hh => ?_).symm
    have hh : h ∈ elements := by simpa using hh
    exact hkeep h (hc.elements i elements hm hv h hh (hp.intact.elements i elements hv h hh))
  · exact hp.heap.injective i j elements elements' (Heap.valueAt?_collected hi).2
      (Heap.valueAt?_collected hj).2
  · rw [hp.meter]
    simp only [State.collect, unfreed_free]
  · rw [hp.stack]
    exact (List.map_congr_left hstack).symm
  · rw [hp.frame]
    exact (hframe s.frame (List.mem_cons_self ..)).symm
  · rw [hp.callers]
    simp only [State.collect, Stack.items_map, List.map_map]
    exact List.map_congr_left fun frame hf => (hframe frame (List.mem_cons_of_mem _ hf)).symm

theorem Picture.afterInstruction (hp : Picture limited address s t) (opcode : Opcode) :
    Picture limited address (s.afterInstruction opcode).2 t := by
  have hcount : Picture limited address (if State.isCounted opcode then s.count else s) t := by
    split
    · exact ⟨⟨hp.intact.free, hp.intact.elements, hp.intact.stack, hp.intact.frames⟩, hp.heap,
        hp.meter, hp.stack, hp.frame, hp.callers, hp.position, hp.output⟩
    · exact hp
  rw [State.afterInstruction]
  generalize (if State.isCounted opcode then s.count else s) = u at hcount
  dsimp only
  split
  · exact hcount.collect
  · exact hcount

theorem Picture.apply (hp : Picture limited address s t) (control : Control) :
    Picture limited address (control.apply s) (Ideal.advance control t) := by
  have hposition : (Ideal.advance control t).position = (control.apply s).position := by
    cases control with
    | next => exact congrArg (· + 1) hp.position
    | halt => exact hp.position
    | _ => rfl
  cases control with
  | halt => exact hp
  | _ =>
    exact ⟨hp.intact.apply _, hp.heap, hp.meter, hp.stack, hp.frame, hp.callers, hposition, hp.output⟩

/-! ## Runs -/

/-- A run ended for a reason that the machine without a heap does not know. -/
def Ending.Excused (limited : Bool) (ending : Option Ending) : Prop :=
  ∃ fault, ending = some (.failed fault) ∧ fault.cause.Excused limited

theorem Picture.turn (hp : Picture limited address s t) (p : Program) :
    Ending.Excused limited (p.turn s).ending ∨
    (p.turn s).ending = (Ideal.turn p t).2 ∧
      ∃ address', Picture limited address' (p.turn s).state (Ideal.turn p t).1 := by
  unfold Program.turn Ideal.turn
  rw [hp.position]
  cases p.instructions[s.position]? with
  | none => exact .inr ⟨rfl, address, hp⟩
  | some i =>
    have hf := simulates_execute i p address s t hp trivial
    dsimp only
    cases hr : (i.execute p).run s with
    | error cause s' =>
      rw [hr] at hf
      cases hr' : (Ideal.execute i p).run t with
      | ok control t' =>
        rw [hr'] at hf
        exact .inl ⟨_, rfl, hf⟩
      | error cause' t' =>
        rw [hr'] at hf
        rcases hf with hf | ⟨rfl, address', hp'⟩
        · exact .inl ⟨_, rfl, hf⟩
        · exact .inr ⟨rfl, address', hp'⟩
    | ok control s' =>
      rw [hr] at hf
      cases hr' : (Ideal.execute i p).run t with
      | error cause' t' =>
        rw [hr'] at hf
        exact hf.elim
      | ok control' t' =>
        rw [hr'] at hf
        obtain ⟨address', hp', rfl⟩ := hf
        exact .inr ⟨rfl, address', (hp'.afterInstruction i.opcode).apply control⟩

theorem Picture.runFrom {σ : Type} (hp : Picture limited address s t) (p : Program)
    (observe : σ → Event → σ) (turns : Nat) (start : σ) :
    Ending.Excused limited (p.runFrom observe turns s start).ending ∨
    (p.runFrom observe turns s start).ending = (Ideal.runFrom p turns t).2 ∧
      ∃ address', Picture limited address' (p.runFrom observe turns s start).state
        (Ideal.runFrom p turns t).1 := by
  induction turns generalizing address s t start with
  | zero => exact .inr ⟨rfl, address, hp⟩
  | succ turns ih =>
    have ht := hp.turn p
    rw [Program.runFrom, Ideal.runFrom]
    rcases hi : Ideal.turn p t with ⟨t', ending⟩
    rw [hi] at ht
    rcases ht with ⟨fault, hf, he⟩ | ⟨hending, address', hp'⟩
    · rw [hf]
      exact .inl ⟨fault, rfl, he⟩
    · rw [hending]
      cases ending with
      | none => exact ih hp' _
      | some ending => exact .inr ⟨rfl, address', hp'⟩

/-- A run that is not stopped by what the machine without a heap does not know goes as one without a
heap. -/
theorem Program.run_pictured {σ : Type} {p : Program} (limited : Bool) {entry : Nat}
    (he : p.entry? = some entry) (meter : Meter) (observe : σ → Event → σ) (start : σ) {turns : Nat}
    (hfree : ∀ fault, (p.run meter turns observe start).ending = some (.failed fault) →
      ¬ fault.cause.Excused limited) :
    (p.run meter turns observe start).ending = (Ideal.runFrom p turns
        (.initial entry p.size (if limited then some meter.unfreed else none))).2 ∧
      ∃ address, Picture limited address (p.run meter turns observe start).state (Ideal.runFrom p turns
        (.initial entry p.size (if limited then some meter.unfreed else none))).1 := by
  have hrun : p.run meter turns observe start =
      p.runFrom observe turns (.initial entry p.size meter) start := by
    rw [run, he]
    rfl
  rw [hrun] at hfree ⊢
  rcases (Picture.initial limited entry p.size meter).runFrom p observe turns start with
    ⟨fault, hf, hc⟩ | h
  · exact absurd hc (hfree fault hf)
  · exact h

/-! ## Final values -/

theorem outermost_picture (hp : Picture limited address s t) :
    t.outermost = s.outermost.picture s.heap address := by
  rw [Ideal.State.outermost, State.outermost, hp.callers, hp.frame, List.getLastD_eq_getLast?,
    List.getLastD_eq_getLast?, List.getLast?_map]
  cases s.callers.items.getLast? <;> rfl

/-- What a state leaves behind is in its picture. -/
theorem Picture.outcome_eq (hp : Picture limited address s t) :
    s.outcome = .ok ⟨t.objects, t.globals, s.heap.stats s.collections⟩ := by
  have hstack : s.stack.items.reverse.mapM s.heap.object = .ok t.objects := by
    rw [mapM_eq_ok fun h hh => hp.object_eq (hp.intact.stack h (List.mem_reverse.1 hh)),
      Ideal.State.objects, hp.stack, ← List.map_reverse, List.map_map]
    rfl
  have hglobals : s.heap.variables s.outermost.bindings = .ok t.globals := by
    have hb : ∀ b ∈ s.outermost.bindings.mergeSort fun a b => a.1 ≤ b.1,
        (do return (b.1, ← s.heap.object b.2) : Except Handle (String × Object)) =
          .ok (b.1, t.memory.object (s.heap.datum address b.2)) := by
      intro b hb
      have hb := (List.mergeSort_perm ..).mem_iff.1 hb
      rw [hp.object_eq ((hp.intact.frames _ s.outermost_mem_frames).bindings b hb)]
      rfl
    have hsort : t.outermost.bindings.mergeSort (fun a b => a.1 ≤ b.1) =
        (s.outermost.bindings.mergeSort fun a b => a.1 ≤ b.1).map
          fun b => (b.1, s.heap.datum address b.2) := by
      rw [outermost_picture hp, Frame.picture, List.map_mergeSort (s := fun a b => a.1 ≤ b.1)]
      intro a _ b _
      rfl
    rw [Heap.variables, mapM_eq_ok hb, Ideal.State.globals, hsort, List.map_map]
    rfl
  simp only [State.outcome, hstack, hglobals]
  rfl

end Runs

end CMinusMinus
