import CMinusMinus.Proofs.Machine.Resolution
import CMinusMinus.Proofs.Machine.Turns
import Mathlib

/-!
# What changes in the heap

Integers never change and arrays keep their length. The only instruction that changes a value is the one
that stores an element, and it changes one element of one array; every other instruction leaves what the
handles resolve to, whatever it allocates, and a collection takes values away as a whole.
-/

namespace CMinusMinus

/-! ## Values -/

/-- Values that cannot be told apart but by the elements of an array. -/
inductive Value.Alike : Value → Value → Prop where
  | int (value : Int) : Alike (.int value) (.int value)
  | array {elements elements' : Array Handle} (h : elements'.size = elements.size) :
    Alike (.array elements) (.array elements')

theorem Value.Alike.refl (value : Value) : value.Alike value := by
  cases value with
  | int value => exact .int value
  | array elements => exact .array rfl

theorem Value.Alike.trans {a b c : Value} (h : a.Alike b) (h' : b.Alike c) : a.Alike c := by
  cases h with
  | int value => exact h'
  | array h =>
    cases h' with
    | array h' => exact .array (h'.trans h)

theorem Value.alike_setElement (position : Nat) (element : Handle) (value : Value) :
    value.Alike (value.setElement position element) := by
  cases value with
  | int value => exact .int value
  | array elements => exact .array Array.size_setIfInBounds

namespace Heap

/-- Handles to one slot that resolve are the same. -/
theorem eq_of_index_eq {heap : Heap} {h h' : Handle} {v v' : Value} (hv : heap.get? h = some v)
    (hv' : heap.get? h' = some v') (hi : h.index = h'.index) : h = h' := by
  rw [get?_eq] at hv hv'
  rw [hi] at hv
  obtain ⟨slot, hs, hv⟩ := Option.bind_eq_some_iff.1 hv
  obtain ⟨slot', hs', hv'⟩ := Option.bind_eq_some_iff.1 hv'
  cases hs.symm.trans hs'
  split at hv
  · split at hv'
    · rename_i hg hg'
      exact congrArg₂ Handle.mk hi (hg.symm.trans hg')
    · cases hv'
  · cases hv

/-- What resolves after a collection did so before. -/
theorem get?_of_collected {heap : Heap} {marks : Array Bool} {h : Handle} {value : Value}
    (hv : (heap.release (heap.garbage marks)).get? h = some value) : heap.get? h = some value := by
  rw [← get?_collected (valueAt?_collected (valueAt?_of_get? hv)).1]
  exact hv

end Heap

/-! ## Instructions -/

/-- Every value of a heap is in another one as it is. -/
def Heap.Keeps (heap heap' : Heap) : Prop :=
  ∀ h value, heap.get? h = some value → heap'.get? h = some value

/-- The heap after an instruction that stores nothing has every value as it was. -/
theorem State.Change.keeps {i : Instruction} (hi : ¬ i.Stores) {full : Prop} {s t : State}
    (h : s.Change i full t) (hs : s.heap.FreeSound) : t.heap.FreeSound ∧ s.heap.Keeps t.heap := by
  cases h with
  | allocate hm value =>
    have ha := Heap.allocate_spec hs value
    exact ⟨ha.free, fun h v hv => ha.get?_eq hv⟩
  | store hstores => exact absurd hstores hi
  | _ => exact ⟨hs, fun h v hv => hv⟩

/-- The next instruction is a store, with a marker and a variable that is bound to an array: the position is
on top of the stack, and below it the new element. -/
structure Program.Stores (p : Program) (s : State) (marker name : String) (array : Handle)
    (position : Nat) (element : Handle) : Prop where
  instruction : p.instructions[s.position]? = some ⟨.pop, [marker, name]⟩
  bound : s.frame.bindings.lookup name = some array
  operands : ∃ index rest, s.stack.items = index :: element :: rest ∧
    s.heap.get? index = some (.int position)

namespace Action

/-- Storing an element replaces one in the array of the variable, or stops before the heap is changed. -/
theorem heap_writeElement (name : String) (s : State) :
    ((writeElement name).final s).heap = s.heap ∨
    ∃ array position element index rest elements,
      s.frame.bindings.lookup name = some array ∧ s.stack.items = index :: element :: rest ∧
      s.heap.get? index = some (.int (position : Nat)) ∧ s.heap.get? array = some (.array elements) ∧
      ((writeElement name).final s).heap = s.heap.setElement array position element := by
  unfold writeElement
  rw [final_bind, run_popPair]
  cases hp : s.stack.popPair? with
  | none => exact .inl rfl
  | some popped =>
    obtain ⟨index, element, stack⟩ := popped
    have hitems : s.stack.items = index :: element :: stack.items := by
      rw [Stack.popPair?_eq_some_iff.1 hp, Stack.items_push, Stack.items_push]
    dsimp only
    rw [final_bind, run_lookup]
    dsimp only
    cases hl : s.frame.bindings.lookup name with
    | none => exact .inl rfl
    | some array =>
      dsimp only
      rw [final_bind, run_elementsOf]
      dsimp only
      rcases ha : s.heap.get? array with _ | value | elements
      · exact .inl rfl
      · exact .inl rfl
      · dsimp only
        rw [final_bind, run_elementIndex]
        dsimp only
        rcases hx : s.heap.get? index with _ | x | others
        · exact .inl rfl
        · dsimp only
          by_cases hbounds : 0 ≤ x ∧ x < elements.size
          · rw [if_pos hbounds]
            refine .inr ⟨array, x.toNat, element, index, stack.items, elements, rfl, hitems, ?_, ha, rfl⟩
            rw [hx, Int.toNat_of_nonneg hbounds.1]
          · rw [if_neg hbounds]
            exact .inl rfl
        · exact .inl rfl

end Action

/-! ## Turns -/

section Turns

variable {p : Program} {s : State} {h : Handle} {v v' : Value}

/-- What resolves after a turn resolves to the same before garbage is collected. -/
theorem Program.get?_executed (hv : (p.turn s).state.heap.get? h = some v) :
    (p.executed s).heap.get? h = some v :=
  turn_relates_executed (R := fun s t => ∀ h v, t.heap.get? h = some v → s.heap.get? h = some v)
    (fun _ _ _ hv => hv) (fun hst htu h v hv => hst h v (htu h v hv))
    (fun _ _ _ hv => Heap.get?_of_collected hv) (fun _ _ _ _ hv => hv) h v hv

theorem Program.keeps_executed (hs : s.heap.FreeSound)
    (hi : ∀ i, p.instructions[s.position]? = some i → ¬ i.Stores) :
    (p.executed s).heap.FreeSound ∧ s.heap.Keeps (p.executed s).heap := by
  refine executed_relates (R := fun s t => s.heap.FreeSound → t.heap.FreeSound ∧ s.heap.Keeps t.heap)
    (fun s hs => ⟨hs, fun _ _ hv => hv⟩)
    (fun hat => fun (hc : State.Change _ True _ _) hs => hc.keeps (hi _ hat) hs) (fun hst htu hs => ?_)
    (fun _ _ _ => trivial) hs
  obtain ⟨ht, hst⟩ := hst hs
  obtain ⟨hu, htu⟩ := htu ht
  exact ⟨hu, fun h v hv => htu h v (hst h v hv)⟩

theorem Program.executed_store {marker name : String}
    (hi : p.instructions[s.position]? = some ⟨.pop, [marker, name]⟩) :
    p.executed s = (Action.writeElement name).final s := by
  have hfinal : (Instruction.execute ⟨.pop, [marker, name]⟩ p).final s = _ :=
    Action.final_bind (Action.writeElement name) (fun _ => pure Control.next) s
  unfold executed
  rw [hi]
  dsimp only
  rw [hfinal]
  unfold Action.final
  cases (Action.writeElement name).run s <;> rfl

/-- A value that outlives a turn is what it was, or the array that the instruction stored into. -/
theorem Program.value_turn (hs : s.heap.FreeSound) (hv : s.heap.get? h = some v)
    (hv' : (p.turn s).state.heap.get? h = some v') :
    v' = v ∨ ∃ marker name position element, p.Stores s marker name h position element ∧
      v' = v.setElement position element := by
  replace hv' := get?_executed hv'
  by_cases hstores : ∃ i, p.instructions[s.position]? = some i ∧ i.Stores
  · obtain ⟨i, hi, marker, name, rfl⟩ := hstores
    rw [executed_store hi] at hv'
    rcases Action.heap_writeElement name s with
      hheap | ⟨array, position, element, index, rest, elements, hbound, hitems, hindex, harray, hheap⟩
    · rw [hheap, hv] at hv'
      exact .inl (Option.some.inj hv').symm
    · rw [hheap, Heap.get?_setElement] at hv'
      by_cases hslot : h.index = array.index
      · obtain rfl := Heap.eq_of_index_eq hv harray hslot
        rw [if_pos rfl, hv] at hv'
        exact .inr ⟨marker, name, position, element, ⟨hi, hbound, index, rest, hitems, hindex⟩,
          (Option.some.inj hv').symm⟩
      · rw [if_neg hslot, hv] at hv'
        exact .inl (Option.some.inj hv').symm
  · have hkeeps := (keeps_executed hs fun i hi hi' => hstores ⟨i, hi, hi'⟩).2
    rw [hkeeps h v hv] at hv'
    exact .inl (Option.some.inj hv').symm

end Turns

/-! ## Runs -/

section Runs

variable {σ : Type} (p : Program) (meter : Meter) (observe : σ → Event → σ) (start : σ)

theorem Program.intact_run (turns : Nat) : (p.run meter turns observe start).state.Intact :=
  run_preserves (P := State.Intact) (fun _ => .initial ..) (fun _ hs => (p.safe_turn hs).1) turns observe start

variable {p meter observe start}

theorem Program.value_next {n : Nat} {h : Handle} {v v' : Value}
    (hv : (p.run meter n observe start).state.heap.get? h = some v)
    (hv' : (p.run meter (n + 1) observe start).state.heap.get? h = some v') :
    v' = v ∨ ∃ marker name position element,
      p.Stores (p.run meter n observe start).state marker name h position element ∧
      v' = v.setElement position element := by
  rw [run_succ] at hv'
  cases hn : (p.run meter n observe start).ending with
  | some ending =>
    rw [Run.next_ended hn, hv] at hv'
    exact .inl (Option.some.inj hv').symm
  | none =>
    rw [Run.next_going hn] at hv'
    exact value_turn (p.intact_run meter observe start n).free hv hv'

theorem Program.alike_run {i j : Nat} (hij : i ≤ j) {h : Handle}
    (hr : ∀ k, i ≤ k → k ≤ j → (p.run meter k observe start).state.heap.resolves h = true) {v v' : Value}
    (hv : (p.run meter i observe start).state.heap.get? h = some v)
    (hv' : (p.run meter j observe start).state.heap.get? h = some v') : v.Alike v' := by
  induction hij generalizing v' with
  | refl =>
    cases hv.symm.trans hv'
    exact .refl v
  | @step j hij ih =>
    obtain ⟨u, hu⟩ := Heap.resolves_iff.1 (hr j hij (Nat.le_succ j))
    have hvu := ih (fun k hik hkj => hr k hik (Nat.le_succ_of_le hkj)) hu
    rcases value_next hu hv' with rfl | ⟨marker, name, position, element, -, rfl⟩
    · exact hvu
    · exact hvu.trans (u.alike_setElement position element)

/-- Integers are immutable and arrays have a fixed size: while a handle resolves, it does so to one integer
or to arrays of one size. From one turn to the next an element of an array is replaced only by a store: by
the value below the top of the stack, at the position on top of it, in the array of the variable that is
named in the store. The machine does not look at the marker of a store; the reader does. -/
theorem Program.run_alike (p : Program) (meter : Meter) (observe : σ → Event → σ) (start : σ) :
    let state := fun n => (p.run meter n observe start).state
    (∀ i j, i ≤ j → ∀ h, (∀ k, i ≤ k → k ≤ j → (state k).heap.resolves h = true) → ∀ v v',
      (state i).heap.get? h = some v → (state j).heap.get? h = some v' → v.Alike v') ∧
    ∀ n h elements elements' position, (state n).heap.get? h = some (.array elements) →
      (state (n + 1)).heap.get? h = some (.array elements') → elements'[position]? ≠ elements[position]? →
      ∃ marker name element, p.Stores (state n) marker name h position element ∧
        elements'[position]? = some element ∧
        (Instruction.validate ⟨.pop, [marker, name]⟩ = .ok () → marker = Instruction.storeMarker) := by
  intro state
  refine ⟨fun i j hij h hr v v' => alike_run hij hr, fun n h elements elements' position hv hv' hne => ?_⟩
  rcases value_next hv hv' with hsame | ⟨marker, name, stored, element, hstores, hset⟩
  · cases hsame
    exact absurd rfl hne
  · cases hset
    -- elsewhere the array is as it was
    obtain rfl : stored = position := by
      by_contra hother
      exact hne (Array.getElem?_setIfInBounds_ne hother)
    have hlt : stored < elements.size := by
      by_contra hle
      exact hne (by rw [Array.getElem?_eq_none, Array.getElem?_eq_none] <;> simpa using hle)
    refine ⟨marker, name, element, hstores, by simp [hlt], fun hvalid => ?_⟩
    by_contra hmarker
    simp [Instruction.validate, Opcode.accepts, Instruction.badArgument?, hmarker] at hvalid

/-- An array of one element, before and after a store into it. -/
theorem Program.run_alike_store :
    let p : Program := ⟨#[⟨.push, ["1"]⟩, ⟨.array, ["a"]⟩, ⟨.push, ["5"]⟩, ⟨.push, ["0"]⟩,
      ⟨.pop, ["arr", "a"]⟩], .ofList [("main", 0)]⟩
    let state := fun n => (p.run .plain n (fun seen _ => seen) ()).state
    (state 4).heap.get? ⟨2, 0⟩ = some (.array #[⟨1, 0⟩]) ∧
    (state 5).heap.get? ⟨2, 0⟩ = some (.array #[⟨3, 0⟩]) ∧
    Value.Alike (.array #[⟨1, 0⟩]) (.array #[⟨3, 0⟩]) ∧
    ∃ marker name element, p.Stores (state 4) marker name ⟨2, 0⟩ 0 element ∧
      (#[⟨3, 0⟩] : Array Handle)[0]? = some element := by
  intro p state
  have hbefore : (p.run .plain 4 (fun seen _ => seen) ()).state.heap.get? ⟨2, 0⟩ =
      some (.array #[⟨1, 0⟩]) := by cbv
  have hafter : (p.run .plain 5 (fun seen _ => seen) ()).state.heap.get? ⟨2, 0⟩ =
      some (.array #[⟨3, 0⟩]) := by cbv
  obtain ⟨halike, hstores⟩ := run_alike p .plain (fun seen _ => seen) ()
  refine ⟨hbefore, hafter, halike 4 5 (by decide) ⟨2, 0⟩ (fun k hk hk' => ?_) _ _ hbefore hafter, ?_⟩
  · obtain rfl | rfl : k = 4 ∨ k = 5 := by omega
    · exact Heap.resolves_iff.2 ⟨_, hbefore⟩
    · exact Heap.resolves_iff.2 ⟨_, hafter⟩
  · have hnext : (state (4 + 1)).heap.get? ⟨2, 0⟩ = some (.array #[⟨3, 0⟩]) := by
      rw [show 4 + 1 = 5 from rfl]
      exact hafter
    obtain ⟨marker, name, element, hstore, helement, -⟩ :=
      hstores 4 ⟨2, 0⟩ _ _ 0 hbefore hnext (by decide)
    exact ⟨marker, name, element, hstore, helement⟩

/-- The same store with another marker, which no reader lets pass: the element is replaced all the same. -/
theorem Program.stores_without_marker :
    let p : Program := ⟨#[⟨.push, ["1"]⟩, ⟨.array, ["a"]⟩, ⟨.push, ["5"]⟩, ⟨.push, ["0"]⟩,
      ⟨.pop, ["x", "a"]⟩], .ofList [("main", 0)]⟩
    let state := fun n => (p.run .plain n (fun seen _ => seen) ()).state
    (state 4).heap.get? ⟨2, 0⟩ = some (.array #[⟨1, 0⟩]) ∧
    (state 5).heap.get? ⟨2, 0⟩ = some (.array #[⟨3, 0⟩]) ∧
    ∀ name array position element, ¬ p.Stores (state 4) Instruction.storeMarker name array position element := by
  intro p state
  have hbefore : (p.run .plain 4 (fun seen _ => seen) ()).state.heap.get? ⟨2, 0⟩ =
      some (.array #[⟨1, 0⟩]) := by cbv
  have hafter : (p.run .plain 5 (fun seen _ => seen) ()).state.heap.get? ⟨2, 0⟩ =
      some (.array #[⟨3, 0⟩]) := by cbv
  have hinstruction : p.instructions[(p.run .plain 4 (fun seen _ => seen) ()).state.position]? =
      some ⟨.pop, ["x", "a"]⟩ := by cbv
  refine ⟨hbefore, hafter, fun name array position element hstores => ?_⟩
  have hsame := hinstruction.symm.trans hstores.instruction
  simp [Instruction.storeMarker] at hsame

end Runs

end CMinusMinus
