import CMinusMinus.Proofs.Graph.Reachability
import CMinusMinus.Proofs.Machine.Accounting
import CMinusMinus.Proofs.Machine.Cycles

/-!
# What a collection frees

A value can be reached if its handle resolves and references lead to it from a root. Marks are by slot, and
a slot has one handle that resolves, so the marked slots are those of the values that can be reached. A
collection frees the other ones: it leaves what can be reached as it is, and no handle resolves to a slot
that it freed, of whatever generation. What it reports are the numbers of the values that went and of those
that stayed; that needs the free list to name the empty slots, each once, which is so in every run.
-/

namespace CMinusMinus

open Relation

/-! ## Values that can be reached -/

namespace Heap

variable {heap : Heap} {roots : List Handle}

/-- A handle resolves to a value to which references lead from a root. -/
def Reached (heap : Heap) (roots : List Handle) (h : Handle) : Prop :=
  heap.resolves h = true ∧ ∃ root ∈ roots, ReflTransGen heap.Refers root h

theorem Refers.resolves {h k : Handle} (hr : heap.Refers h k) : heap.resolves h = true := by
  obtain ⟨elements, hv, -⟩ := hr
  exact resolves_iff.2 ⟨_, hv⟩

theorem Reached.refers {h k : Handle} (hh : heap.Reached roots h) (hr : heap.Refers h k)
    (hk : heap.resolves k = true) : heap.Reached roots k := by
  obtain ⟨-, root, hroot, hpath⟩ := hh
  exact ⟨hk, root, hroot, hpath.tail hr⟩

/-! ## Marks -/

theorem mem_references {h : Handle} (hh : heap.resolves h = true) {i : Nat} :
    i ∈ heap.references h.index ↔ ∃ k, heap.Refers h k ∧ heap.resolves k = true ∧ k.index = i := by
  obtain ⟨value, hv⟩ := resolves_iff.1 hh
  rw [references_eq (valueAt?_of_get? hv), mem_resolved]
  unfold Refers
  rw [hv]
  cases value <;> simp [Value.children]

/-- A mark is on a slot if and only if it is the one of a value that can be reached. -/
theorem isMarked_mark_iff (heap : Heap) (roots : Array Handle) (i : Nat) :
    isMarked (heap.mark roots) i = true ↔ ∃ h, h.index = i ∧ heap.Reached roots.toList h := by
  rw [isMarked_iff, Graph.mem_search_iff (heap.search_mark roots)]
  constructor
  · intro hr
    induction hr with
    | start hs =>
      obtain ⟨h, hh, hr, hi⟩ := mem_resolved.1 hs
      exact ⟨h, hi, hr, h, by simpa using hh, .refl⟩
    | step _ hn ht _ ih =>
      obtain ⟨h, rfl, hh⟩ := ih
      cases hn
      obtain ⟨k, href, hk, hi⟩ := (mem_references hh.1).1 ht
      exact ⟨k, hi, hh.refers href hk⟩
  · rintro ⟨h, rfl, hh, root, hroot, hpath⟩
    induction hpath with
    | refl => exact .start (mem_resolved.2 ⟨root, by simpa using hroot, hh, rfl⟩) (index_lt_of_resolves hh)
    | tail _ href ih =>
      have hr := ih href.resolves
      exact hr.step rfl ((mem_references href.resolves).2 ⟨_, href, hh, rfl⟩) (index_lt_of_resolves hh)

/-- Of the handles that resolve, those to marked slots are the ones that can be reached. -/
theorem isMarked_mark_of_resolves {h : Handle} (hh : heap.resolves h = true) :
    isMarked (heap.mark roots.toArray) h.index = true ↔ heap.Reached roots h := by
  rw [isMarked_mark_iff, List.toList_toArray]
  refine ⟨fun ⟨k, hi, hk⟩ => ?_, fun hr => ⟨h, rfl, hr⟩⟩
  obtain ⟨_, hv⟩ := resolves_iff.1 hh
  obtain ⟨_, hv'⟩ := resolves_iff.1 hk.1
  rwa [eq_of_index_eq hv hv' hi.symm]

/-! ## Freed slots -/

theorem get?_collected_iff {h : Handle} {value : Value} :
    (heap.release (heap.garbage (heap.mark roots.toArray))).get? h = some value ↔
      heap.get? h = some value ∧ heap.Reached roots h := by
  constructor
  · intro hv
    have hm := (valueAt?_collected (valueAt?_of_get? hv)).1
    have hv := get?_of_collected hv
    exact ⟨hv, (isMarked_mark_of_resolves (resolves_iff.2 ⟨_, hv⟩)).1 hm⟩
  · rintro ⟨hv, hr⟩
    rw [get?_collected ((isMarked_mark_of_resolves hr.1).2 hr), hv]

/-- No handle resolves to a slot that a collection freed. -/
theorem resolves_freed {h : Handle} (hh : heap.resolves h = true) (hr : ¬heap.Reached roots h)
    (generation : Nat) :
    (heap.release (heap.garbage (heap.mark roots.toArray))).resolves ⟨h.index, generation⟩ = false := by
  by_contra hres
  obtain ⟨value, hv⟩ := resolves_iff.1 (by simpa using hres)
  exact hr ((isMarked_mark_of_resolves hh).1 (valueAt?_collected (valueAt?_of_get? hv)).1)

/-- The handle that resolves to what a slot holds. -/
def handleAt (heap : Heap) (i : Nat) : Handle :=
  ⟨i, (heap.slots[i]?.map Slot.generation).getD 0⟩

theorem get?_handleAt (heap : Heap) (i : Nat) : heap.get? (heap.handleAt i) = heap.valueAt? i := by
  rw [get?_eq, valueAt?_eq]
  unfold handleAt
  cases heap.slots[i]? <;> simp

theorem mem_garbage_mark {i : Nat} : i ∈ heap.garbage (heap.mark roots.toArray) ↔
    heap.resolves (heap.handleAt i) = true ∧ ¬heap.Reached roots (heap.handleAt i) := by
  rw [mem_garbage, ← get?_handleAt, ← resolves_iff]
  refine and_congr_right fun hh => ?_
  rw [← isMarked_mark_of_resolves hh, Bool.not_eq_true]
  rfl

/-- The values that a collection frees, by their handles. -/
theorem mem_map_handleAt_garbage {h : Handle} :
    h ∈ (heap.garbage (heap.mark roots.toArray)).map heap.handleAt ↔
      heap.resolves h = true ∧ ¬heap.Reached roots h := by
  rw [List.mem_map]
  constructor
  · rintro ⟨i, hi, rfl⟩
    exact mem_garbage_mark.1 hi
  · rintro ⟨hh, hr⟩
    obtain ⟨value, hv⟩ := resolves_iff.1 hh
    have he : heap.handleAt h.index = h :=
      eq_of_index_eq ((heap.get?_handleAt _).trans (valueAt?_of_get? hv)) hv rfl
    exact ⟨h.index, mem_garbage_mark.2 (by rw [he]; exact ⟨hh, hr⟩), he⟩

end Heap

/-! ## Collections -/

/-- A state comes from another one by a collection that reports how many values it freed and how many are
left. -/
structure State.Collected (s : State) (freed live : Nat) (t : State) : Prop where
  /-- What can be reached from the stack and the variables stays, under its handle; -/
  kept : ∀ h value, t.heap.get? h = some value ↔ s.heap.get? h = some value ∧ s.heap.Reached s.roots h
  /-- to the slot of anything else no handle resolves. -/
  gone : ∀ h, s.heap.resolves h = true → ¬s.heap.Reached s.roots h →
    ∀ generation, t.heap.resolves ⟨h.index, generation⟩ = false
  stack : t.stack = s.stack
  /-- Each frame loses those of its values that are gone, and keeps its variables. -/
  frames : t.frames = s.frames.map fun frame =>
    { frame with owned := frame.owned.filter fun h => t.heap.resolves h }
  free : t.heap.FreeExact
  went : ∃ handles : List Handle, handles.Nodup ∧ handles.length = freed ∧
    ∀ h, h ∈ handles ↔ s.heap.resolves h = true ∧ ¬s.heap.Reached s.roots h
  stayed : t.live = live ∧ s.live = live + freed
  counts : t.meter.counts? = s.meter.counts?.map fun counts => (counts.1, counts.2 + freed)

section Collections

variable {s : State}

theorem State.frames_collect (hs : s.Intact) : s.collect.2.frames = s.frames.map fun frame =>
    { frame with owned := frame.owned.filter fun h => s.collect.2.heap.resolves h } := by
  show s.frames.map (Frame.prune · _) = _
  refine List.map_congr_left fun frame hf => ?_
  unfold Frame.prune
  congr 1
  refine List.filter_congr fun h hh => ?_
  have hr := (hs.frames frame hf).owned h hh
  rw [Bool.eq_iff_iff, Heap.isMarked_mark_of_resolves hr]
  constructor
  · intro hreached
    obtain ⟨value, hv⟩ := Heap.resolves_iff.1 hr
    exact Heap.resolves_iff.2 ⟨value, Heap.get?_collected_iff.2 ⟨hv, hreached⟩⟩
  · intro hres
    obtain ⟨value, hv⟩ := Heap.resolves_iff.1 hres
    exact (Heap.get?_collected_iff.1 hv).2

theorem Heap.FreeExact.live_eq {heap : Heap} (h : heap.FreeExact) : heap.live = heap.values.length := by
  have := h.values_add_free
  unfold Heap.live
  omega

theorem State.collected_collect (hs : s.Intact) (hfree : s.heap.FreeExact) :
    s.Collected s.collect.1 s.collect.2.heap.live s.collect.2 := by
  have hloses := State.loses_collect hfree
  have hlive := hloses.exact.live_eq
  refine
    { kept := fun h value => Heap.get?_collected_iff
      gone := fun h hh hr => Heap.resolves_freed hh hr
      stack := rfl
      frames := State.frames_collect hs
      free := hloses.exact
      went := ⟨_, ?_, List.length_map _, fun h => Heap.mem_map_handleAt_garbage⟩
      stayed := ⟨hlive.symm, ?_⟩
      counts := hloses.counts }
  · refine (s.heap.nodup_garbage _).map fun i j hij => ?_
    exact congrArg Handle.index hij
  · rw [hlive]
    exact hloses.values.symm

/-- After an instruction the state stays but for what is counted, or there is a collection, which is told. -/
theorem State.afterInstruction_eq (s : State) (opcode : Opcode) :
    (s.afterInstruction opcode).1 = [] ∨ s.afterInstruction opcode =
      ([.collection s.collect.1 s.collect.2.heap.live], s.collect.2) := by
  unfold afterInstruction
  generalize hcounted : (if isCounted opcode then s.count else s) = counted
  have hcollect : counted.collect = s.collect := by
    rw [← hcounted]
    split <;> rfl
  dsimp only
  split
  · exact .inr (by rw [hcollect])
  · exact .inl rfl

end Collections

/-! ## Runs -/

section Runs

variable {σ : Type} {p : Program} {s : State}

theorem Program.intact_executed (hs : s.Intact) : (p.executed s).Intact := by
  unfold executed
  cases p.instructions[s.position]? with
  | none => exact hs
  | some i =>
    have hsound := Action.sound_execute i p s ⟨hs, trivial⟩
    unfold Action.final
    dsimp only
    cases hr : (i.execute p).run s <;> rw [hr] at hsound <;> exact hsound.1

theorem State.Change.freeExact {i : Instruction} {full : Prop} {t : State} (h : s.Change i full t)
    (hs : s.heap.FreeExact) : t.heap.FreeExact := by
  cases h with
  | allocate hm value => exact hs.allocate value
  | store _ array index value => exact hs.setElement array index value
  | _ => exact hs

theorem Program.freeExact_executed (hs : s.heap.FreeExact) : (p.executed s).heap.FreeExact :=
  executed_relates (R := fun s t => s.heap.FreeExact → t.heap.FreeExact) (fun _ hs => hs)
    (fun _ => fun (h : State.Change _ True _ _) => h.freeExact) (fun h h' hs => h' (h hs))
    (fun _ _ _ => trivial) hs

theorem Program.freeExact_turn (hs : s.heap.FreeExact) : (p.turn s).state.heap.FreeExact :=
  (loses_turn (freeExact_executed hs)).elim fun _ h => h.exact

/-- A turn that tells of a collection has completed an instruction, and collected in the state that this leaves. -/
theorem Program.turn_collects {freed live : Nat} (h : .collection freed live ∈ (p.turn s).events) :
    ∃ (i : Instruction) (control : Control),
      freed = (p.executed s).collect.1 ∧ live = (p.executed s).collect.2.heap.live ∧
      (p.executed s).afterInstruction i.opcode = ([.collection freed live], (p.executed s).collect.2) ∧
      p.turn s = ⟨.instruction s.position i.opcode s.stack.height s.depth ::
        (control.events (p.executed s).depth ++ [.collection freed live]),
        control.apply (p.executed s).collect.2, control.ending?⟩ := by
  rcases p.turn_cases s with ⟨-, hturn⟩ | ⟨i, -, ⟨cause, hturn⟩ | ⟨control, hturn⟩⟩
  · simp [hturn] at h
  · simp [hturn] at h
  · have hpassed : Event.collection freed live ∉ control.events (p.executed s).depth := by
      cases control <;> simp [Control.events]
    rw [hturn] at h
    rcases (p.executed s).afterInstruction_eq i.opcode with hnone | hcollect
    · simp [hnone, hpassed] at h
    · rw [hcollect] at h hturn
      obtain ⟨rfl, rfl⟩ : freed = (p.executed s).collect.1 ∧ live = (p.executed s).collect.2.heap.live := by
        simpa [hpassed] using h
      exact ⟨i, control, rfl, rfl, hcollect, hturn⟩

/-- The collection that a turn tells of is made in the state that the instruction leaves. -/
theorem Program.collection_turn {freed live : Nat} (h : .collection freed live ∈ (p.turn s).events) :
    (freed, live) = ((p.executed s).collect.1, (p.executed s).collect.2.heap.live) ∧
      ∃ position, (p.turn s).state = { (p.executed s).collect.2 with position } := by
  obtain ⟨i, control, hfreed, hlive, -, hturn⟩ := turn_collects h
  refine ⟨Prod.ext hfreed hlive, ?_⟩
  rw [hturn]
  cases control <;> exact ⟨_, rfl⟩

/-- Collections are exact. Marking puts marks on the slots of the values that can be reached from the roots,
and on no others, in any heap. A collection in a state of a run, or in the one that the next instruction
leaves, frees exactly what cannot be reached from the stack and the variables of all frames, and so do the
collections that a run makes, which tell how many values went and how many there are. -/
theorem Program.collection_exact :
    (∀ (heap : Heap) (roots : Array Handle) (i : Nat), Heap.isMarked (heap.mark roots) i = true ↔
      ∃ h, h.index = i ∧ heap.Reached roots.toList h) ∧
    ∀ (p : Program) (meter : Meter) (turns : Nat) (observe : σ → Event → σ) (start : σ),
      let s := (p.run meter turns observe start).state
      (∀ t ∈ [s, p.executed s], t.Collected t.collect.1 t.collect.2.heap.live t.collect.2) ∧
      ∀ freed live, .collection freed live ∈ (p.turn s).events →
        (p.executed s).Collected freed live (p.turn s).state := by
  refine ⟨Heap.isMarked_mark_iff, fun p meter turns observe start => ?_⟩
  intro s
  have hs : s.Intact ∧ s.heap.FreeExact :=
    run_preserves (P := fun s => s.Intact ∧ s.heap.FreeExact)
      (fun entry => ⟨.initial entry p.size meter, Heap.freeExact_empty⟩)
      (fun s hs => ⟨(p.safe_turn hs.1).1, freeExact_turn hs.2⟩) turns observe start
  have hexecuted := State.collected_collect (intact_executed (p := p) hs.1) (freeExact_executed hs.2)
  refine ⟨?_, fun freed live hevent => ?_⟩
  · simp only [List.forall_mem_cons, List.not_mem_nil, false_imp_iff, implies_true, and_true]
    exact ⟨State.collected_collect hs.1 hs.2, hexecuted⟩
  · obtain ⟨hreport, position, hstate⟩ := collection_turn hevent
    cases hreport
    rw [hstate]
    exact ⟨hexecuted.kept, hexecuted.gone, hexecuted.stack, hexecuted.frames, hexecuted.free,
      hexecuted.went, hexecuted.stayed, hexecuted.counts⟩

/-- The second instruction takes the only value from the stack, and a collection after it frees the value. -/
theorem Program.collection_exact_pop :
    let p : Program := ⟨#[⟨.push, ["1"]⟩, ⟨.pop, []⟩], .ofList [("main", 0)]⟩
    let s := (p.run (.ofLimits ⟨none, some 2, none, none⟩) 1 (fun seen _ => seen) ()).state
    .collection 1 0 ∈ (p.turn s).events ∧ (p.executed s).Collected 1 0 (p.turn s).state := by
  intro p s
  have hevent : Event.collection 1 0 ∈ (p.turn s).events := by
    have hevents : (p.turn s).events = [.instruction 1 .pop 1 1, .collection 1 0] := by cbv
    rw [hevents]
    simp
  exact ⟨hevent, (collection_exact.2 p (.ofLimits ⟨none, some 2, none, none⟩) 1 (fun seen _ => seen) ()).2
    1 0 hevent⟩

end Runs

end CMinusMinus
