import CMinusMinus.Proofs.Ideal.Interval
import CMinusMinus.Proofs.Machine.Turns
import Mathlib

/-!
# The accounts of the heap

The free list names the empty slots, each once, so slots are either free or hold a value. While an
instruction is executed values only come, each of them counted, and the heap grows only when no slot is
free; a collection only takes values away, each of them counted, and leaves the number of slots. So a run
has as many slots as there were values at its fullest moment, which is always one before a collection.
-/

namespace CMinusMinus

namespace Heap

/-! ## Empty slots -/

/-- A slot that holds nothing. -/
def Vacant (heap : Heap) (i : Nat) : Prop :=
  ∃ generation, heap.slots[i]? = some ⟨generation, none⟩

/-- The free list names the empty slots, each once. -/
structure FreeExact (heap : Heap) : Prop where
  sound : heap.FreeSound
  listed : ∀ i, heap.Vacant i → i ∈ heap.free

theorem not_vacant_of_valueAt? {heap : Heap} {i : Nat} {value : Value} (hv : heap.valueAt? i = some value) :
    ¬ heap.Vacant i := by
  rintro ⟨generation, hs⟩
  rw [valueAt?_eq, hs] at hv
  cases hv

theorem vacant_congr {heap heap' : Heap} {i : Nat} (hs : heap'.slots[i]? = heap.slots[i]?) :
    heap'.Vacant i ↔ heap.Vacant i := by
  unfold Vacant
  rw [hs]

namespace FreeExact

variable {heap : Heap} (h : heap.FreeExact)
include h

theorem mem_free_iff (i : Nat) : i ∈ heap.free ↔ heap.Vacant i :=
  ⟨h.sound.vacant i, h.listed i⟩

theorem count_free (i : Nat) (hi : heap.Vacant i) : heap.free.count i = 1 :=
  List.count_eq_one_of_mem h.sound.nodup (h.listed i hi)

/-- The free list is a rearrangement of the positions of the empty slots. -/
theorem perm_free : heap.free.Perm (heap.slots.toList.findIdxs (·.value.isNone)) := by
  refine (List.perm_ext_iff_of_nodup h.sound.nodup List.nodup_findIdxs).2 fun i => ?_
  rw [h.mem_free_iff, List.mem_findIdxs_iff_exists_getElem_pos]
  constructor
  · rintro ⟨generation, hs⟩
    obtain ⟨hi, hs⟩ := Array.getElem?_eq_some_iff.1 hs
    exact ⟨hi, by simp [hs]⟩
  · rintro ⟨hi, hs⟩
    refine ⟨heap.slots[i].generation, Array.getElem?_eq_some_iff.2 ⟨hi, ?_⟩⟩
    rw [← Option.isNone_iff_eq_none.1 (by simpa using hs)]

/-- A slot is free or holds a value. -/
theorem values_add_free : heap.values.length + heap.free.length = heap.slots.size := by
  rw [values, List.length_filterMap_eq_countP, h.perm_free.length_eq, List.length_findIdxs,
    ← Array.length_toList, List.length_eq_countP_add_countP (·.value.isSome)]
  congr 1
  exact List.countP_congr fun slot _ => by simp

end FreeExact

theorem freeExact_empty : empty.FreeExact :=
  ⟨freeSound_empty, by simp [Vacant, empty]⟩

/-! ## Changes -/

theorem FreeExact.allocate {heap : Heap} (h : heap.FreeExact) (value : Value) :
    (heap.allocate value).2.FreeExact := by
  have ha := allocate_spec h.sound value
  refine ⟨ha.free, fun i hi => ?_⟩
  have hne : i ≠ (heap.allocate value).1.index := by
    rintro rfl
    exact not_vacant_of_valueAt? (valueAt?_of_get? ha.found) hi
  have hmem := h.listed i ((vacant_congr (ha.others i hne)).1 hi)
  obtain ⟨slots, free⟩ := heap
  cases free with
  | nil => cases hmem
  | cons index free =>
    rcases List.mem_cons.1 hmem with rfl | hmem
    · exact absurd rfl hne
    · exact hmem

/-- The heap grows by a slot if none is free. -/
theorem size_allocate (heap : Heap) (value : Value) : (heap.allocate value).2.slots.size =
    heap.slots.size + (1 - heap.free.length) := by
  obtain ⟨slots, free⟩ := heap
  cases free <;> simp [Heap.allocate]

theorem length_free_allocate (heap : Heap) (value : Value) :
    (heap.allocate value).2.free.length = heap.free.length - 1 := by
  obtain ⟨slots, free⟩ := heap
  cases free <;> simp [Heap.allocate]

theorem FreeExact.setElement {heap : Heap} (h : heap.FreeExact) (array : Handle) (position : Nat)
    (element : Handle) : (heap.setElement array position element).FreeExact := by
  refine ⟨freeSound_setElement h.sound array position element, fun i ⟨generation, hs⟩ => h.listed i ?_⟩
  simp only [Heap.setElement, Array.getElem?_modify] at hs
  split at hs
  · obtain ⟨slot, hslot, hset⟩ := Option.map_eq_some_iff.1 hs
    refine ⟨slot.generation, hslot.trans (congrArg some ?_)⟩
    injection hset with _ hvalue
    rw [← Option.map_eq_none_iff.1 hvalue]
  · exact ⟨generation, hs⟩

theorem size_release (heap : Heap) (indices : List Nat) :
    (heap.release indices).slots.size = heap.slots.size := by
  rw [release]
  generalize heap.slots = slots
  induction indices generalizing slots with
  | nil => rfl
  | cons index rest ih =>
    rw [List.foldl_cons, ih, Array.size_modify]

theorem FreeExact.collected {heap : Heap} (h : heap.FreeExact) (marks : Array Bool) :
    (heap.release (heap.garbage marks)).FreeExact := by
  refine ⟨freeSound_collected h.sound marks, fun i hi => ?_⟩
  show i ∈ (heap.garbage marks).reverse ++ heap.free
  rw [List.mem_append, List.mem_reverse]
  by_cases hg : i ∈ heap.garbage marks
  · exact .inl hg
  · have hslots := slots_release heap (heap.nodup_garbage marks) i
    rw [if_neg hg] at hslots
    exact .inr (h.listed i ((vacant_congr hslots).1 hi))

/-! ## Kinds -/

/-- Kinds that do not occur add nothing to the number of values. -/
theorem sum_counts (count : String → Nat) (kinds : List String) :
    ((kinds.filterMap fun kind => if count kind = 0 then none else some (kind, count kind)).map
      Prod.snd).sum = (kinds.map count).sum := by
  induction kinds with
  | nil => rfl
  | cons kind kinds ih =>
    by_cases h : count kind = 0 <;> simp [h, ih]

theorem length_eq_kinds (values : List Value) :
    values.length = values.countP (·.kind == "Array") + values.countP (·.kind == "Int") := by
  induction values with
  | nil => rfl
  | cons value values ih =>
    cases value <;> simp [Value.kind, ih] <;> omega

theorem sum_kinds (heap : Heap) : (heap.kinds.map Prod.snd).sum = heap.values.length := by
  have hsum := sum_counts (fun kind => heap.values.countP (·.kind == kind)) ["Array", "Int"]
  rw [List.map_cons, List.map_cons, List.map_nil, List.sum_cons, List.sum_singleton,
    ← length_eq_kinds] at hsum
  exact hsum

end Heap

/-! ## Instructions and collections -/

section Changes

variable {s t u : State} {m n : Nat}

theorem Meter.counts?_allocate {meter meter' : Meter} (h : meter.allocate = .ok meter') :
    meter'.counts? = meter.counts?.map fun counts => (counts.1 + 1, counts.2) := by
  rcases Meter.allocate_eq_ok h with ⟨rfl, rfl⟩ | ⟨limits, allocated, freed, rfl, rfl⟩ <;> rfl

theorem Meter.counts?_free (meter : Meter) (count : Nat) :
    (meter.free count).counts? = meter.counts?.map fun counts => (counts.1, counts.2 + count) := by
  cases meter <;> rfl

/-- From one state to a later one `n` values come, each of them counted, and slots only where all of them
hold a value. -/
structure State.Gains (n : Nat) (s t : State) : Prop where
  exact : t.heap.FreeExact
  values : t.heap.values.length = s.heap.values.length + n
  size : t.heap.slots.size = max s.heap.slots.size t.heap.values.length
  counts : t.meter.counts? = s.meter.counts?.map fun counts => (counts.1 + n, counts.2)

/-- From one state to a later one `n` values go, each of them counted, and no slot. -/
structure State.Loses (n : Nat) (s t : State) : Prop where
  exact : t.heap.FreeExact
  values : t.heap.values.length + n = s.heap.values.length
  size : t.heap.slots.size = s.heap.slots.size
  counts : t.meter.counts? = s.meter.counts?.map fun counts => (counts.1, counts.2 + n)

theorem State.Gains.trans (h : s.Gains m t) (h' : t.Gains n u) : s.Gains (m + n) u := by
  refine ⟨h'.exact, ?_, ?_, ?_⟩
  · rw [h'.values, h.values, Nat.add_assoc]
  · have := h'.values
    rw [h'.size, h.size]
    omega
  · rw [h'.counts, h.counts, Option.map_map]
    simp only [Function.comp_def, Nat.add_assoc]

theorem State.Loses.trans (h : s.Loses m t) (h' : t.Loses n u) : s.Loses (m + n) u := by
  refine ⟨h'.exact, ?_, h'.size.trans h.size, ?_⟩
  · rw [← h.values, ← h'.values]
    omega
  · rw [h'.counts, h.counts, Option.map_map]
    simp only [Function.comp_def, Nat.add_assoc]

variable (hs : s.heap.FreeExact)
include hs

theorem State.gains_zero (hheap : t.heap = s.heap) (hmeter : t.meter = s.meter) : s.Gains 0 t := by
  have htotal := hs.values_add_free
  refine ⟨hheap ▸ hs, by rw [hheap]; rfl, ?_, by rw [hmeter]; simp⟩
  rw [hheap]
  omega

theorem State.loses_zero (hheap : t.heap = s.heap) (hmeter : t.meter = s.meter) : s.Loses 0 t :=
  ⟨hheap ▸ hs, by rw [hheap]; rfl, by rw [hheap], by rw [hmeter]; simp⟩

theorem State.gains_allocate (value : Value) (hheap : t.heap = (s.heap.allocate value).2)
    (hmeter : s.meter.allocate = .ok t.meter) : s.Gains 1 t := by
  have hexact := hs.allocate value
  have htotal := hs.values_add_free
  have htotal' := hexact.values_add_free
  have hsize := s.heap.size_allocate value
  have hfree := s.heap.length_free_allocate value
  rw [← hheap] at hexact htotal' hsize hfree
  exact ⟨hexact, by omega, by omega, Meter.counts?_allocate hmeter⟩

theorem State.gains_setElement (array : Handle) (position : Nat) (element : Handle)
    (hheap : t.heap = s.heap.setElement array position element) (hmeter : t.meter = s.meter) :
    s.Gains 0 t := by
  have hexact := hs.setElement array position element
  have htotal := hs.values_add_free
  have htotal' := hexact.values_add_free
  have hsize : (s.heap.setElement array position element).slots.size = s.heap.slots.size :=
    Array.size_modify
  have hfree : (s.heap.setElement array position element).free = s.heap.free := rfl
  rw [← hheap] at hexact htotal' hsize hfree
  rw [hfree] at htotal'
  exact ⟨hexact, by omega, by omega, by rw [hmeter]; simp⟩

theorem State.Change.gains {i : Instruction} (h : s.Change i False t) : ∃ n, s.Gains n t := by
  cases h with
  | allocate hm value => exact ⟨1, State.gains_allocate hs value rfl hm⟩
  | full hm hfull => exact hfull.elim
  | store hi array index value => exact ⟨0, State.gains_setElement hs array index value rfl rfl⟩
  | _ => exact ⟨0, State.gains_zero hs rfl rfl⟩

theorem State.loses_collect : s.Loses s.collect.1 s.collect.2 := by
  have hexact := hs.collected (s.heap.mark s.roots.toArray)
  have htotal := hs.values_add_free
  have htotal' := hexact.values_add_free
  have hsize := s.heap.size_release (s.heap.garbage (s.heap.mark s.roots.toArray))
  have hfree : (s.heap.release (s.heap.garbage (s.heap.mark s.roots.toArray))).free =
      (s.heap.garbage (s.heap.mark s.roots.toArray)).reverse ++ s.heap.free := rfl
  rw [hfree, List.length_append, List.length_reverse, hsize] at htotal'
  refine ⟨hexact, ?_, hsize, s.meter.counts?_free _⟩
  show (s.heap.release _).values.length + (s.heap.garbage _).length = s.heap.values.length
  omega

end Changes

/-! ## Turns -/

section Turns

variable {p : Program} {s : State}

theorem Program.gains_executed (hs : s.heap.FreeExact)
    (hroom : ∀ fault, (p.turn s).ending = some (.failed fault) → ¬ fault.cause.IsArena) :
    ∃ n, s.Gains n (p.executed s) := by
  refine executed_relates (R := fun s t => s.heap.FreeExact → ∃ n, s.Gains n t)
    (fun s hs => ⟨0, State.gains_zero hs rfl rfl⟩)
    (fun _ => fun (h : State.Change _ False _ _) hs => h.gains hs) (fun h h' hs => ?_)
    (fun i hi ⟨t, hfull, hr⟩ => ?_) hs
  · obtain ⟨m, h⟩ := h hs
    obtain ⟨n, h'⟩ := h' h.exact
    exact ⟨m + n, h.trans h'⟩
  · have hsize : t.heap.slots.size ≥ Heap.capacity := by
      simp only [Heap.isFull, Bool.and_eq_true, decide_eq_true_eq] at hfull
      exact hfull.2
    refine hroom ⟨_, some s.position⟩ ?_ ⟨t.heap.slots.size, hsize, rfl⟩
    unfold turn
    simp only [hi, hr]

theorem Program.loses_turn (hs : (p.executed s).heap.FreeExact) :
    ∃ n, (p.executed s).Loses n (p.turn s).state := by
  refine turn_relates_executed (R := fun s t => s.heap.FreeExact → ∃ n, s.Loses n t)
    (fun s hs => ⟨0, State.loses_zero hs rfl rfl⟩) (fun h h' hs => ?_)
    (fun s hs => ⟨_, State.loses_collect hs⟩) (fun s position hs => ⟨0, State.loses_zero hs rfl rfl⟩) hs
  obtain ⟨m, h⟩ := h hs
  obtain ⟨n, h'⟩ := h' h.exact
  exact ⟨m + n, h.trans h'⟩

end Turns

/-! ## Runs -/

section Runs

variable {σ : Type}

/-- The states of a run in its first turns, the latest first: those between two turns, and in each turn the
one before garbage is collected. -/
def Program.history (p : Program) (meter : Meter) (observe : σ → Event → σ) (start : σ) : Nat → List State
  | 0 => [(p.run meter 0 observe start).state]
  | turns + 1 =>
    let run := p.run meter turns observe start
    match run.ending with
    | some _ => p.history meter observe start turns
    | none => (p.turn run.state).state :: p.executed run.state :: p.history meter observe start turns

/-- How many values there are in a state. -/
def State.live (s : State) : Nat :=
  (s.heap.stats s.collections).live

/-- The accounts of a state are right. -/
structure State.Balanced (s : State) : Prop where
  /-- Every empty slot is in the free list once, -/
  once : ∀ i, s.heap.Vacant i → s.heap.free.count i = 1
  /-- and nothing else is. -/
  vacant : ∀ i ∈ s.heap.free, s.heap.Vacant i
  total : (s.heap.stats s.collections).total = s.live + (s.heap.stats s.collections).free
  counts : ∃ allocated freed, s.meter.counts? = some (allocated, freed) ∧ freed ≤ allocated ∧
    s.live = allocated - freed
  kinds : ((s.heap.stats s.collections).kinds.map Prod.snd).sum = s.live

/-- What holds of a state with those that came before it, the latest first. -/
structure State.Follows (s : State) (past : List State) : Prop where
  exact : s.heap.FreeExact
  counts : ∃ freed, s.meter.counts? = some (s.live + freed, freed)
  peak : IsGreatest {n | ∃ t ∈ s :: past, n = t.live} s.heap.slots.size

theorem State.Follows.balanced {s : State} {past : List State} (h : s.Follows past) : s.Balanced := by
  obtain ⟨freed, hcounts⟩ := h.counts
  exact ⟨h.exact.count_free, h.exact.sound.vacant, h.exact.values_add_free.symm,
    ⟨_, freed, hcounts, Nat.le_add_left .., (Nat.add_sub_cancel ..).symm⟩, s.heap.sum_kinds⟩

theorem live_cons (s : State) (past : List State) :
    {n | ∃ t ∈ s :: past, n = t.live} = insert s.live {n | ∃ t ∈ past, n = t.live} := by
  ext n
  simp [eq_comm]

theorem State.follows_initial (entry size : Nat) (limits : Limits) :
    (State.initial entry size (.ofLimits limits)).Follows [] := by
  refine ⟨Heap.freeExact_empty, ⟨0, rfl⟩, ?_⟩
  simp only [List.mem_singleton, exists_eq_left]
  exact ⟨rfl, fun n hn => hn.le⟩

theorem State.Follows.gains {s t : State} {past : List State} (h : s.Follows past) {n : Nat}
    (hg : s.Gains n t) : t.Follows (s :: past) := by
  obtain ⟨freed, hcounts⟩ := h.counts
  refine ⟨hg.exact, ⟨freed, ?_⟩, ?_⟩
  · have hvalues : t.live = s.live + n := hg.values
    rw [hg.counts, hcounts, hvalues, Option.map_some, Nat.add_right_comm]
  · rw [live_cons, hg.size, max_comm]
    exact h.peak.insert t.live

theorem State.Follows.loses {s t : State} {past : List State} (h : s.Follows past) {n : Nat}
    (hl : s.Loses n t) : t.Follows (s :: past) := by
  obtain ⟨freed, hcounts⟩ := h.counts
  have hvalues : t.live + n = s.live := hl.values
  refine ⟨hl.exact, ⟨freed + n, ?_⟩, ?_⟩
  · rw [hl.counts, hcounts, ← hvalues, Option.map_some, Nat.add_right_comm, Nat.add_assoc]
  · have htotal := h.exact.values_add_free
    have hle : t.live ≤ s.heap.slots.size := by
      change s.live + _ = _ at htotal
      omega
    rw [live_cons, hl.size, ← max_eq_right hle]
    exact h.peak.insert t.live

/-- Where the slots became more, each holds a value. -/
theorem State.Follows.free_eq_nil {s t : State} {past : List State} (h : t.Follows (s :: past))
    (hs : s.Follows past) (hlt : s.heap.slots.size < t.heap.slots.size) : t.heap.free = [] := by
  have hlive : t.heap.slots.size = t.live := by
    obtain ⟨u, hu, hsize⟩ := h.peak.1
    rcases List.mem_cons.1 hu with rfl | hu
    · exact hsize
    · have hle := hs.peak.2 ⟨u, hu, rfl⟩
      omega
  have htotal := h.exact.values_add_free
  change t.live + _ = _ at htotal
  exact List.length_eq_zero_iff.1 (by omega)

variable {p : Program} {limits : Limits} {observe : σ → Event → σ} {start : σ}

/-- The history of a run ends in the state where the run stands. -/
theorem Program.head_history (p : Program) (meter : Meter) (observe : σ → Event → σ) (start : σ)
    (turns : Nat) : ∃ past, p.history meter observe start turns =
      (p.run meter turns observe start).state :: past := by
  induction turns with
  | zero => exact ⟨[], rfl⟩
  | succ turns ih =>
    rw [history, run_succ]
    cases hn : (p.run meter turns observe start).ending with
    | some ending =>
      rw [Run.next_ended hn]
      exact ih
    | none =>
      rw [Run.next_going hn]
      exact ⟨_, rfl⟩

theorem Run.HasRoom.before {run : Run σ} (h : (run.next p observe).HasRoom) : run.HasRoom := by
  intro fault hf
  rw [Run.next_ended hf] at h
  exact h fault hf

theorem Program.follows_history {turns : Nat} (hroom : (p.run (.ofLimits limits) turns observe start).HasRoom)
    {s : State} {past : List State} (h : s :: past <:+ p.history (.ofLimits limits) observe start turns) :
    s.Follows past := by
  induction turns generalizing s past with
  | zero =>
    obtain ⟨entry, hentry⟩ := p.state_run_zero (.ofLimits limits) observe start
    rw [history, hentry] at h
    rcases List.suffix_cons_iff.1 h with he | hs
    · cases he
      exact State.follows_initial _ _ _
    · cases List.suffix_nil.1 hs
  | succ turns ih =>
    rw [run_succ] at hroom
    have ih := @ih hroom.before
    obtain ⟨past', hpast⟩ := p.head_history (.ofLimits limits) observe start turns
    rw [history] at h
    cases hn : (p.run (.ofLimits limits) turns observe start).ending with
    | some ending =>
      rw [hn] at h
      exact ih h
    | none =>
      rw [hn] at h
      rw [Run.next_going hn] at hroom
      have hlast : (p.run (.ofLimits limits) turns observe start).state.Follows past' :=
        ih (hpast ▸ List.suffix_rfl)
      obtain ⟨m, hgains⟩ := gains_executed hlast.exact hroom
      have hexecuted := hlast.gains hgains
      obtain ⟨n, hloses⟩ := loses_turn hexecuted.exact
      -- a turn adds two states: the one before garbage is collected, and the one it ends with
      rcases List.suffix_cons_iff.1 h with he | h
      · rw [hpast] at he
        cases he
        exact hexecuted.loses hloses
      · rcases List.suffix_cons_iff.1 h with he | h
        · rw [hpast] at he
          cases he
          exact hexecuted
        · exact ih h

/-- In a run with limits of its own that does not want for slots, every state balances: the free list names
the empty slots, each once; slots are free or hold a value; the meter counted the values that came and those
that went; and the kinds add up. There are as many slots as there were values at once so far, so slots only
come where none is free. -/
theorem Program.run_balanced (p : Program) (limits : Limits) (turns : Nat) (observe : σ → Event → σ)
    (start : σ) (hroom : (p.run (.ofLimits limits) turns observe start).HasRoom) :
    let history := p.history (.ofLimits limits) observe start turns
    history.head? = some (p.run (.ofLimits limits) turns observe start).state ∧
    ∀ s past, s :: past <:+ history →
      s.Balanced ∧
      IsGreatest {n | ∃ t ∈ s :: past, n = t.live} (s.heap.stats s.collections).total ∧
      (∀ value, s.heap.free ≠ [] → (s.heap.allocate value).2.slots.size = s.heap.slots.size) ∧
      ∀ t ∈ past.head?, t.heap.slots.size < s.heap.slots.size → s.heap.free = [] := by
  intro history
  refine ⟨?_, fun s past h => ?_⟩
  · obtain ⟨past, hpast⟩ := p.head_history (.ofLimits limits) observe start turns
    exact congrArg List.head? hpast
  · have hs := follows_history hroom h
    refine ⟨hs.balanced, hs.peak, fun value hfree => ?_, fun t ht hlt => ?_⟩
    · rw [Heap.size_allocate]
      have := List.length_pos_iff.2 hfree
      omega
    · cases past with
      | nil => cases ht
      | cons t' past =>
        cases ht
        have ht := follows_history hroom ((List.suffix_cons s _).trans h)
        exact hs.free_eq_nil ht hlt

/-- A program whose first value goes before two others come, with a collection after every second counted
instruction: three values came and one went, and two slots were enough. -/
theorem Program.run_balanced_reuse :
    let p : Program := ⟨#[⟨.push, ["1"]⟩, ⟨.pop, []⟩, ⟨.push, ["2"]⟩, ⟨.push, ["3"]⟩], .ofList [("main", 0)]⟩
    let limits : Limits := ⟨none, some 2, none, none⟩
    let run := fun turns => p.run (.ofLimits limits) turns (fun seen _ => seen) ()
    (run 4).HasRoom ∧ (run 4).state.meter.counts? = some (3, 1) ∧ (run 4).state.heap.slots.size = 2 ∧
      (run 4).state.Balanced := by
  intro p limits run
  have hgoing : (p.run (.ofLimits limits) 4 (fun seen _ => seen) ()).ending = none := by cbv
  have hcounts : (p.run (.ofLimits limits) 4 (fun seen _ => seen) ()).state.meter.counts? = some (3, 1) := by
    cbv
  have hsize : (p.run (.ofLimits limits) 4 (fun seen _ => seen) ()).state.heap.slots.size = 2 := by cbv
  have hroom : (run 4).HasRoom := by
    intro fault hfault
    cases hgoing.symm.trans hfault
  obtain ⟨hhead, hbalanced⟩ := run_balanced p limits 4 (fun seen _ => seen) () hroom
  obtain ⟨past, hpast⟩ := List.head?_eq_some_iff.1 hhead
  exact ⟨hroom, hcounts, hsize, (hbalanced _ past (hpast ▸ List.suffix_rfl)).1⟩

end Runs

end CMinusMinus
