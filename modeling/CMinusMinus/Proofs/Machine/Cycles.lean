import CMinusMinus.Proofs.Machine.Allocation
import CMinusMinus.Proofs.Machine.Cuts
import CMinusMinus.Proofs.Source.Conditions
import CMinusMinus.Toolchain

/-!
# Arrays inside themselves

An array holds handles to its elements, and a store may put an array into one that can be reached from it: that
closes a cycle. Nothing else does, since a new array holds only a new integer and a collection takes arrays
away. So the references between the arrays of a run are acyclic exactly as long as no store closes a cycle, and
as long as they are, nothing that is printed or left behind is cut off for being inside itself.
-/

namespace CMinusMinus

open Relation

/-! ## References -/

namespace Heap

variable {heap heap' : Heap} {path : List Handle} {h : Handle} {object : Object}

/-- A handle resolves to an array that holds another one. -/
def Refers (heap : Heap) (h k : Handle) : Prop :=
  ∃ elements, heap.get? h = some (.array elements) ∧ k ∈ elements

/-- No array can be reached from its elements. -/
def Acyclic (heap : Heap) : Prop :=
  ∀ h, ¬ TransGen heap.Refers h h

theorem acyclic_empty : empty.Acyclic := by
  intro h hcycle
  obtain ⟨k, ⟨elements, hv, -⟩, -⟩ := TransGen.head'_iff.1 hcycle
  simp [get?_eq, empty] at hv

theorem Acyclic.mono (ha : heap.Acyclic)
    (h : ∀ x elements, heap'.get? x = some (.array elements) → heap.get? x = some (.array elements)) :
    heap'.Acyclic :=
  fun x hcycle => ha x (TransGen.mono (fun _ _ ⟨elements, hv, hk⟩ => ⟨elements, h _ _ hv, hk⟩) x x hcycle)

/-- One more reference closes a cycle only if it leads to where it can be reached from. -/
theorem Acyclic.insert (ha : heap.Acyclic) (array element : Handle)
    (h : ∀ x y, heap'.Refers x y → heap.Refers x y ∨ x = array ∧ y = element)
    (hno : ¬ ReflTransGen heap.Refers element array) : heap'.Acyclic := by
  -- a path is an old one, or goes to the array on old references and on from the element
  have hpath : ∀ x y, TransGen heap'.Refers x y → TransGen heap.Refers x y ∨
      ReflTransGen heap.Refers x array ∧ ReflTransGen heap.Refers element y := by
    intro x y hxy
    induction hxy with
    | single hxy =>
      rcases h _ _ hxy with hold | ⟨rfl, rfl⟩
      · exact .inl (.single hold)
      · exact .inr ⟨.refl, .refl⟩
    | tail _ hyz ih =>
      rcases h _ _ hyz with hold | ⟨rfl, rfl⟩
      · exact ih.imp (·.tail hold) fun ⟨hx, hy⟩ => ⟨hx, hy.tail hold⟩
      · rcases ih with hxy | ⟨-, hy⟩
        · exact .inr ⟨hxy.to_reflTransGen, .refl⟩
        · exact absurd hy hno
  intro x hcycle
  rcases hpath x x hcycle with hold | ⟨hx, hx'⟩
  · exact ha x hold
  · exact hno (hx'.trans hx)

/-! ## New arrays and stores -/

theorem acyclic_allocate_int (hf : heap.FreeSound) (ha : heap.Acyclic) (value : Int) :
    (heap.allocate (.int value)).2.Acyclic := by
  have hnew := allocate_spec hf (.int value)
  refine ha.mono fun x elements hv => ?_
  have hother : x.index ≠ (heap.allocate (.int value)).1.index := by
    intro hi
    obtain rfl := eq_of_index_eq hv hnew.found hi
    cases hv.symm.trans hnew.found
  rwa [← get?_congr (hnew.others _ hother)]

/-- A new array whose elements are one integer. -/
theorem acyclic_allocate_array (hf : heap.FreeSound) (ha : heap.Acyclic) {zero : Handle} {value : Int}
    (hz : heap.get? zero = some (.int value)) (length : Nat) :
    (heap.allocate (.array (Array.replicate length zero))).2.Acyclic := by
  have hnew := allocate_spec hf (.array (Array.replicate length zero))
  refine ha.insert (heap.allocate (.array (Array.replicate length zero))).1 zero ?_ ?_
  · rintro x y ⟨elements, hv, hy⟩
    by_cases hi : x.index = (heap.allocate (.array (Array.replicate length zero))).1.index
    · obtain rfl := eq_of_index_eq hv hnew.found hi
      cases hv.symm.trans hnew.found
      exact .inr ⟨rfl, Array.eq_of_mem_replicate hy⟩
    · rw [get?_congr (hnew.others _ hi)] at hv
      exact .inl ⟨elements, hv, hy⟩
  · intro hpath
    rcases ReflTransGen.cases_head_iff.1 hpath with hsame | ⟨y, ⟨elements, hv, -⟩, -⟩
    · have hvacant := hnew.vacant
      rw [← hsame, valueAt?_of_get? hz] at hvacant
      cases hvacant
    · cases hz.symm.trans hv

variable {array element : Handle} {elements : Array Handle} {position : Nat}

theorem get?_array_setElement (hv : heap.get? array = some (.array elements)) :
    (heap.setElement array position element).get? array =
      some (.array (elements.setIfInBounds position element)) := by
  rw [get?_setElement, if_pos rfl, hv]
  rfl

theorem get?_other_setElement (hv : heap.get? array = some (.array elements)) {value : Value}
    (hh : heap.get? h = some value) (hne : h ≠ array) :
    (heap.setElement array position element).get? h = some value := by
  rw [get?_setElement, if_neg fun hi => hne (eq_of_index_eq hh hv hi), hh]

theorem refers_of_setElement (hv : heap.get? array = some (.array elements)) {x y : Handle}
    (hxy : (heap.setElement array position element).Refers x y) :
    heap.Refers x y ∨ x = array ∧ y = element ∧ position < elements.size := by
  obtain ⟨elements', hv', hy⟩ := hxy
  have hr : heap.resolves x = true := by
    rw [← resolves_setElement heap array position element]
    exact resolves_iff.2 ⟨_, hv'⟩
  obtain ⟨value, hx⟩ := resolves_iff.1 hr
  by_cases hxa : x = array
  · subst hxa
    cases (get?_array_setElement hv).symm.trans hv'
    by_cases hlt : position < elements.size
    · rcases Array.mem_or_eq_of_mem_setIfInBounds hy with hy | rfl
      · exact .inl ⟨elements, hv, hy⟩
      · exact .inr ⟨rfl, rfl, hlt⟩
    · rw [Array.setIfInBounds_eq_of_size_le (Nat.le_of_not_lt hlt)] at hy
      exact .inl ⟨elements, hv, hy⟩
  · cases (get?_other_setElement hv hx hxa).symm.trans hv'
    exact .inl ⟨elements', hx, hy⟩

/-- A store into an array that can be reached from the stored value closes a cycle: on the way to the array no
reference is replaced. -/
theorem cyclic_setElement (hv : heap.get? array = some (.array elements)) (hlt : position < elements.size)
    (hpath : ReflTransGen heap.Refers element array) :
    TransGen (heap.setElement array position element).Refers array array := by
  have hback : ∀ x, ReflTransGen heap.Refers x array →
      ReflTransGen (heap.setElement array position element).Refers x array := by
    intro x hx
    induction hx using ReflTransGen.head_induction_on with
    | refl => exact .refl
    | @head x y hxy _ ih =>
      by_cases hxa : x = array
      · rw [hxa]
      · obtain ⟨elements', hx, hy⟩ := hxy
        exact ih.head ⟨elements', get?_other_setElement hv hx hxa, hy⟩
  exact TransGen.head' ⟨_, get?_array_setElement hv, Array.mem_setIfInBounds hlt⟩ (hback element hpath)

/-! ## What is cut off -/

mutual

/-- In an acyclic heap no array is met inside itself. -/
theorem Unfolds.not_contains_cycle (ha : heap.Acyclic) : ∀ {path h object}, heap.Unfolds path h object →
    (∀ k ∈ path, TransGen heap.Refers k h) → ¬ object.Contains .cycle
  | _, _, _, .int _, _ => nofun
  | _, h, _, .cycle _ hm, hpath => absurd (hpath h hm) (ha h)
  | path, h, _, .array hv _ he, hpath => by
    rintro (_ | ⟨hm, hpart⟩)
    refine he.not_contains_cycle ha (fun x hx => ?_) _ hm hpart
    have hedge : heap.Refers h x := ⟨_, hv, Array.mem_toList_iff.1 hx⟩
    exact List.forall_mem_cons.2 ⟨.single hedge, fun k hk => (hpath k hk).tail hedge⟩

theorem UnfoldsAll.not_contains_cycle (ha : heap.Acyclic) : ∀ {path hs objects},
    heap.UnfoldsAll path hs objects → (∀ x ∈ hs, ∀ k ∈ path, TransGen heap.Refers k x) →
    ∀ object ∈ objects, ¬ object.Contains .cycle
  | _, _, _, .nil, _ => nofun
  | _, _, _, .cons ho hr, hpath => by
    obtain ⟨hx, hrest⟩ := List.forall_mem_cons.1 hpath
    exact List.forall_mem_cons.2 ⟨ho.not_contains_cycle ha hx, hr.not_contains_cycle ha hrest⟩

end

theorem Acyclic.object_uncut (ha : heap.Acyclic) (hc : heap.Complete) (hr : heap.resolves h = true)
    {copy : Object} (hcopy : heap.object h = .ok copy) : ¬ copy.Contains .cycle := by
  obtain ⟨object, ho⟩ := exists_unfolds hc (path_nil heap) hr
  obtain rfl := Except.ok.inj (hcopy.symm.trans ho.object_eq)
  exact fun hcycle => ho.not_contains_cycle ha (by simp) (object.contains_cycle_of_cut _ hcycle)

end Heap

/-! ## Actions -/

/-- The heap is sound and no array can be reached from its elements. -/
structure State.Untied (s : State) : Prop where
  free : s.heap.FreeSound
  acyclic : s.heap.Acyclic

namespace Action

/-- Started where the references are acyclic and `P` holds, an action leaves them so. -/
abbrev Unties {α : Type} (P : State → Prop) (a : Action α) (Q : α → State → Prop) : Prop :=
  Triple (fun s => s.Untied ∧ P s) a (fun x s => s.Untied ∧ Q x s) fun _ s => s.Untied

/-- An action keeps the references acyclic. -/
abbrev Keeps {α : Type} (a : Action α) : Prop :=
  Unties (fun _ => True) a fun _ _ => True

theorem LeavesHeap.keeps {α : Type} {a : Action α} (h : LeavesHeap a) : Keeps a := by
  rintro s ⟨hs, -⟩
  have hheap := h s
  unfold final at hheap
  cases hr : a.run s with
  | ok x t =>
    rw [hr] at hheap
    exact ⟨⟨hheap ▸ hs.free, hheap ▸ hs.acyclic⟩, trivial⟩
  | error cause t =>
    rw [hr] at hheap
    exact ⟨hheap ▸ hs.free, hheap ▸ hs.acyclic⟩

theorem Keeps.final {α : Type} {a : Action α} (ha : Keeps a) {s : State} (hs : s.Untied) :
    (a.final s).Untied := by
  have hends := ha s ⟨hs, trivial⟩
  unfold Action.final
  cases hr : a.run s with
  | ok x t =>
    rw [hr] at hends
    exact hends.1
  | error cause t =>
    rw [hr] at hends
    exact hends

/-- A value whose allocation leaves the references acyclic, wherever `P` holds. -/
theorem unties_allocate {P : State → Prop} (value : Value)
    (h : ∀ s : State, s.Untied → P s → (s.heap.allocate value).2.Acyclic) :
    Unties P (allocate value) fun x s => s.heap.get? x = some value := by
  rintro s ⟨hs, hp⟩
  rw [run_allocate]
  cases s.meter.allocate with
  | error e => exact hs
  | ok meter =>
    show Ends _ _ (if _ then _ else _)
    split
    · exact ⟨hs.free, hs.acyclic⟩
    · have hnew := Heap.allocate_spec hs.free value
      exact ⟨⟨hnew.free, h s hs hp⟩, hnew.found⟩

theorem keeps_pushInt (value : Int) : Keeps (pushInt value) :=
  (unties_allocate (.int value) fun _ hs _ => Heap.acyclic_allocate_int hs.free hs.acyclic value).bind
    fun h => (leavesHeap_push h).keeps.imp (fun _ hs => ⟨hs.1, trivial⟩) fun _ _ hs => hs

theorem keeps_pushArgument (arg : String) : Keeps (pushArgument arg) := by
  unfold pushArgument
  cases Text.readInt? arg with
  | some value => exact keeps_pushInt value
  | none => exact ((leavesHeap_lookup arg).bind fun h => leavesHeap_push h).keeps

theorem keeps_applyOperator (opcode : Opcode) (op : BinaryOp) : Keeps (applyOperator opcode op) := by
  refine (leavesHeap_popPair opcode).keeps.bind fun pair => ?_
  refine (leavesHeap_intOf _ _).keeps.bind fun a => (leavesHeap_intOf _ _).keeps.bind fun b => ?_
  cases op.apply a b with
  | ok value => exact keeps_pushInt value
  | error e => exact (leavesHeap_throw _).keeps

theorem keeps_negate : Keeps negate :=
  (leavesHeap_pop .neg).keeps.bind fun h => (leavesHeap_intOf h _).keeps.bind fun _ => keeps_pushInt _

theorem keeps_makeArray (name : String) : Keeps (makeArray name) := by
  refine (leavesHeap_pop .array).keeps.bind fun h => (leavesHeap_intOf h _).keeps.bind fun size => ?_
  split
  · exact (leavesHeap_throw _).keeps
  · refine (leavesHeap_check _).keeps.bind fun _ => ?_
    split
    · exact (leavesHeap_throw _).keeps
    · refine (unties_allocate (.int 0) fun _ hs _ => Heap.acyclic_allocate_int hs.free hs.acyclic 0).bind
        fun zero => ?_
      refine (unties_allocate _ fun _ hs hz =>
        Heap.acyclic_allocate_array hs.free hs.acyclic hz size.toNat).bind fun array => ?_
      exact (leavesHeap_bind name array).keeps.imp (fun _ hs => ⟨hs.1, trivial⟩) fun _ _ hs => hs

theorem keeps_pushLength (name : String) : Keeps (pushLength name) :=
  (leavesHeap_lookup name).keeps.bind fun array => (leavesHeap_elementsOf array _).keeps.bind fun _ =>
    keeps_pushInt _

/-- Only a store can close a cycle. -/
theorem keeps_execute (p : Program) {i : Instruction} (hi : ¬ i.Stores) : Keeps (i.execute p) := by
  obtain ⟨opcode, args⟩ := i
  have hnext : ∀ {a : Action Unit}, Keeps a → Keeps (a >>= fun _ => pure Control.next) :=
    fun ha => ha.bind fun _ => (leavesHeap_pure _).keeps
  unfold Instruction.execute
  dsimp only
  split
  · exact hnext (keeps_pushArgument _)
  · exact hnext ((leavesHeap_pop _).bind fun _ => leavesHeap_pure _).keeps
  · exact (leavesHeap_pop _).keeps.bind fun h => hnext (leavesHeap_bind _ h).keeps
  · exact absurd ⟨_, _, rfl⟩ hi
  · exact (leavesHeap_pop _).keeps.bind fun h => hnext (leavesHeap_print h).keeps
  · exact hnext keeps_negate
  · exact hnext (keeps_applyOperator _ _)
  · exact (leavesHeap_jumpIfZero p _).keeps
  · exact ((leavesHeap_resolve p _).bind fun _ => leavesHeap_pure _).keeps
  · exact (leavesHeap_enter p _).keeps
  · exact (leavesHeap_leave _).keeps
  · exact hnext (keeps_makeArray _)
  · exact hnext (leavesHeap_readElement _).keeps
  · exact hnext (keeps_pushLength _)
  · exact (leavesHeap_throw _).keeps

end Action

/-! ## Stores -/

theorem Stack.popPair?_of_items {α : Type} {s : Stack α} {top below : α} {rest : List α}
    (h : s.items = top :: below :: rest) : ∃ t, s.popPair? = some (top, below, t) :=
  ⟨⟨rest, rest.length, rfl⟩, popPair?_eq_some_iff.2 (ext h)⟩

/-- A store with a position inside the array replaces the element. -/
theorem Program.executed_replaces {p : Program} {s : State} {marker name : String} {array element : Handle}
    {position : Nat} {elements : Array Handle} (h : p.Stores s marker name array position element)
    (hv : s.heap.get? array = some (.array elements)) (hlt : position < elements.size) :
    (p.executed s).heap = s.heap.setElement array position element ∧ (p.executed s).frame = s.frame := by
  obtain ⟨index, rest, hitems, hindex⟩ := h.operands
  obtain ⟨stack, hpop⟩ := Stack.popPair?_of_items hitems
  have hrun : (Action.writeElement name).run s =
      .ok () { s with stack, heap := s.heap.setElement array position element } := by
    simp only [Action.writeElement, EStateM.run_bind, Action.run_popPair, hpop, Action.run_lookup, h.bound,
      Action.run_elementsOf, hv, Action.run_elementIndex, hindex, Int.natCast_nonneg, Nat.cast_lt, hlt,
      and_self, if_true, Int.toNat_natCast]
    rfl
  rw [executed_store h.instruction, Action.final, hrun]
  exact ⟨rfl, rfl⟩

/-- The next instruction stores a value into an array that can be reached from the value. -/
def Program.Closes (p : Program) (s : State) : Prop :=
  ∃ marker name array position element elements, p.Stores s marker name array position element ∧
    s.heap.get? array = some (.array elements) ∧ position < elements.size ∧
    ReflTransGen s.heap.Refers element array

/-! ## Turns -/

section Turns

variable {p : Program} {s : State}

theorem Program.untied_executed (hs : s.Untied) (hno : ¬ p.Closes s) : (p.executed s).Untied := by
  by_cases hstores : ∃ i, p.instructions[s.position]? = some i ∧ i.Stores
  · obtain ⟨i, hi, marker, name, rfl⟩ := hstores
    rw [executed_store hi]
    rcases Action.heap_writeElement name s with
      hheap | ⟨array, position, element, index, rest, elements, hbound, hitems, hindex, hv, hheap⟩
    · exact ⟨hheap ▸ hs.free, hheap ▸ hs.acyclic⟩
    · refine ⟨hheap ▸ Heap.freeSound_setElement hs.free array position element, ?_⟩
      rw [hheap]
      have hstore : p.Stores s marker name array position element := ⟨hi, hbound, index, rest, hitems, hindex⟩
      by_cases hlt : position < elements.size
      · refine hs.acyclic.insert array element (fun x y hxy => ?_) fun hpath =>
          hno ⟨marker, name, array, position, element, elements, hstore, hv, hlt, hpath⟩
        exact (Heap.refers_of_setElement hv hxy).imp_right fun ⟨hx, hy, _⟩ => ⟨hx, hy⟩
      · exact fun x hcycle => hs.acyclic x (TransGen.mono (fun y z hyz =>
          (Heap.refers_of_setElement hv hyz).resolve_right fun h => hlt h.2.2) x x hcycle)
  · unfold executed
    cases hi : p.instructions[s.position]? with
    | none => exact hs
    | some i => exact (Action.keeps_execute p fun hi' => hstores ⟨i, hi, hi'⟩).final hs

theorem State.Untied.collect (hs : s.Untied) : s.collect.2.Untied :=
  ⟨Heap.freeSound_collected hs.free _, hs.acyclic.mono fun _ _ => Heap.get?_of_collected⟩

theorem Program.untied_turn (hs : s.Untied) (hno : ¬ p.Closes s) : (p.turn s).state.Untied :=
  turn_relates_executed (R := fun s t => s.Untied → t.Untied) (fun _ hs => ⟨hs.free, hs.acyclic⟩)
    (fun hst htu hs => htu (hst hs)) (fun _ hs => hs.collect) (fun _ _ hs => ⟨hs.free, hs.acyclic⟩)
    (untied_executed hs hno)

/-! ## Cycles that can be reached -/

/-- An array in a variable or on the stack can be reached from its elements. -/
def State.Knotted (s : State) : Prop :=
  ∃ h ∈ s.roots, TransGen s.heap.Refers h h

theorem State.roots_collect (s : State) : s.collect.2.roots = s.roots := by
  simp [collect, roots, frames, Frame.prune, List.flatMap_map]

/-- A collection frees nothing on a cycle that can be reached: its arrays have marks, one after the other. -/
theorem State.Knotted.collect (hs : s.Knotted) : s.collect.2.Knotted := by
  obtain ⟨h, hroot, hcycle⟩ := hs
  have hclosed := Heap.closed_mark s.heap s.roots
  have hresolves : ∀ x y, TransGen s.heap.Refers x y → s.heap.resolves x = true := by
    intro x y hxy
    obtain ⟨z, ⟨elements, hv, -⟩, -⟩ := TransGen.head'_iff.1 hxy
    exact Heap.resolves_iff.2 ⟨_, hv⟩
  have hpath : ∀ x, TransGen s.heap.Refers x h →
      Heap.isMarked (s.heap.mark s.roots.toArray) x.index = true → TransGen s.collect.2.heap.Refers x h := by
    intro x hx
    induction hx using TransGen.head_induction_on with
    | @single x hxy =>
      intro hm
      obtain ⟨elements, hv, hy⟩ := hxy
      exact .single ⟨elements, (Heap.get?_collected hm).trans hv, hy⟩
    | @head x y hxy hyh ih =>
      intro hm
      obtain ⟨elements, hv, hy⟩ := hxy
      have hmark := hclosed.elements x.index elements hm (Heap.valueAt?_of_get? hv) y hy (hresolves y h hyh)
      exact (ih hmark).head ⟨elements, (Heap.get?_collected hm).trans hv, hy⟩
  refine ⟨h, s.roots_collect ▸ hroot, hpath h hcycle (hclosed.roots h hroot (hresolves h h hcycle))⟩

/-- A store that closes a cycle leaves one, since the array is in a variable. -/
theorem Program.Closes.knotted_turn (hs : p.Closes s) : (p.turn s).state.Knotted := by
  obtain ⟨marker, name, array, position, element, elements, hstore, hv, hlt, hpath⟩ := hs
  obtain ⟨hheap, hframe⟩ := executed_replaces hstore hv hlt
  have hroot : array ∈ (p.executed s).roots := by
    refine List.mem_append_right _ (List.mem_flatMap.2 ⟨_, List.mem_cons_self .., ?_⟩)
    rw [hframe]
    exact List.mem_map.2 ⟨(name, array), mem_of_lookup hstore.bound, rfl⟩
  have hexecuted : (p.executed s).Knotted :=
    ⟨array, hroot, hheap ▸ Heap.cyclic_setElement hv hlt hpath⟩
  exact turn_relates_executed (R := fun s t => s.Knotted → t.Knotted) (fun _ hs => hs)
    (fun hst htu hs => htu (hst hs)) (fun _ hs => hs.collect) (fun _ _ hs => hs) hexecuted

/-! ## Prints -/

/-- The next instruction prints a value. -/
structure Program.Shows (p : Program) (s : State) (h : Handle) : Prop where
  instruction : p.instructions[s.position]? = some ⟨.print, []⟩
  operand : ∃ rest, s.stack.items = h :: rest

theorem Program.Shows.output_turn {h : Handle} (hs : p.Shows s h) {text : String}
    (hrender : s.heap.render h = .ok text) : (p.turn s).state.output = s.output ++ text ++ "\n" := by
  obtain ⟨rest, hitems⟩ := hs.operand
  have hpop : s.stack.pop? = some (h, ⟨rest, rest.length, rfl⟩) := Stack.pop?_eq_some_iff.2 (Stack.ext hitems)
  have hexecuted : (p.executed s).output = s.output ++ text ++ "\n" := by
    unfold executed
    rw [hs.instruction]
    simp only [Instruction.execute, Action.final_bind, Action.run_pop, hpop, Action.run_print, hrender]
    rfl
  rw [← hexecuted]
  exact turn_relates_executed (R := fun s t => t.output = s.output) (fun _ => rfl)
    (fun hst htu => htu.trans hst) (fun _ => rfl) (fun _ _ => rfl)

end Turns

/-! ## What is left behind -/

theorem exists_of_mem_mapM {α β ε : Type} {f : α → Except ε β} {xs : List α} {ys : List β}
    (h : xs.mapM f = .ok ys) {y : β} (hy : y ∈ ys) : ∃ x ∈ xs, f x = .ok y := by
  induction xs generalizing ys with
  | nil =>
    cases h
    cases hy
  | cons x xs ih =>
    rw [List.mapM_cons] at h
    obtain ⟨first, hfirst, h⟩ := bind_eq_ok h
    obtain ⟨rest, hrest, h⟩ := bind_eq_ok h
    cases h
    rcases List.mem_cons.1 hy with rfl | hy
    · exact ⟨x, List.mem_cons_self .., hfirst⟩
    · obtain ⟨z, hz, hzy⟩ := ih hrest hy
      exact ⟨z, List.mem_cons_of_mem _ hz, hzy⟩

/-- The values that an outcome tells, on the stack and in the variables. -/
def Outcome.objects (outcome : Outcome) : List Object :=
  outcome.stack ++ outcome.globals.map Prod.snd

/-- What is left behind are copies of values that resolve. -/
theorem State.Intact.exists_object {s : State} (hs : s.Intact) {outcome : Outcome}
    (ho : s.outcome = .ok outcome) {copy : Object} (hm : copy ∈ outcome.objects) :
    ∃ h, s.heap.resolves h = true ∧ s.heap.object h = .ok copy := by
  obtain ⟨stack, hstack, ho⟩ := bind_eq_ok (mapError_eq_ok ho)
  obtain ⟨globals, hglobals, ho⟩ := bind_eq_ok ho
  cases ho
  rcases List.mem_append.1 hm with hm | hm
  · obtain ⟨h, hh, hcopy⟩ := exists_of_mem_mapM hstack hm
    exact ⟨h, hs.stack h (List.mem_reverse.1 hh), hcopy⟩
  · obtain ⟨named, hnamed, rfl⟩ := List.mem_map.1 hm
    obtain ⟨binding, hb, hpair⟩ := exists_of_mem_mapM hglobals hnamed
    obtain ⟨copy, hcopy, hpair⟩ := bind_eq_ok hpair
    cases hpair
    exact ⟨binding.2, (hs.frames _ s.outermost_mem_frames).bindings binding
      ((List.mergeSort_perm ..).mem_iff.1 hb), hcopy⟩

/-! ## Runs -/

section Runs

variable {σ : Type} {p : Program} {meter : Meter} {observe : σ → Event → σ} {start : σ}

theorem Program.untied_run {n : Nat} (hno : ∀ k < n, (p.run meter k observe start).ending = none →
    ¬ p.Closes (p.run meter k observe start).state) : (p.run meter n observe start).state.Untied := by
  induction n with
  | zero =>
    obtain ⟨entry, hentry⟩ := p.state_run_zero meter observe start
    rw [hentry]
    exact ⟨Heap.freeSound_empty, Heap.acyclic_empty⟩
  | succ n ih =>
    have hs := ih fun k hk => hno k (Nat.lt_succ_of_lt hk)
    rw [run_succ]
    cases hn : (p.run meter n observe start).ending with
    | some ending =>
      rw [Run.next_ended hn]
      exact hs
    | none =>
      rw [Run.next_going hn]
      exact untied_turn hs (hno n (Nat.lt_succ_self n) hn)

theorem Program.Closes.run_succ_not_acyclic {n : Nat} (hn : (p.run meter n observe start).ending = none)
    (hcloses : p.Closes (p.run meter n observe start).state) :
    ¬ (p.run meter (n + 1) observe start).state.heap.Acyclic := by
  rw [run_succ, Run.next_going hn]
  obtain ⟨h, -, hcycle⟩ := hcloses.knotted_turn
  exact fun ha => ha h hcycle

/-- The references between arrays are acyclic in all states of a run exactly as long as no store puts a value
into an array that can be reached from the value. As long as no store does, what is printed and what is left
behind is nowhere cut off for being inside itself. -/
theorem Program.run_acyclic (p : Program) (meter : Meter) (observe : σ → Event → σ) (start : σ) (n : Nat) :
    let run := fun k => p.run meter k observe start
    let closes := fun k => (run k).ending = none ∧ p.Closes (run k).state
    ((∀ k ≤ n, (run k).state.heap.Acyclic) ↔ ∀ k < n, ¬ closes k) ∧
    ((∀ k < n, ¬ closes k) →
      (∀ k < n, (run k).ending = none → ∀ h, p.Shows (run k).state h →
        ∃ object, (run k).state.heap.Unfolds [] h object ∧ ¬ object.Contains .cycle ∧
          (run (k + 1)).state.output = (run k).state.output ++ object.text ++ "\n") ∧
      ∀ outcome, (run n).outcome? = some (.ok outcome) → ∀ object ∈ outcome.objects,
        ¬ object.Contains .cycle) := by
  intro run closes
  have huntied : (∀ k < n, ¬ closes k) → ∀ k ≤ n, (run k).state.Untied := fun hno k hk =>
    untied_run fun j hj hgoing hcloses => hno j (hj.trans_le hk) ⟨hgoing, hcloses⟩
  refine ⟨⟨fun ha k hk ⟨hgoing, hcloses⟩ => hcloses.run_succ_not_acyclic hgoing (ha (k + 1) hk),
    fun hno k hk => (huntied hno k hk).acyclic⟩, fun hno => ⟨?_, ?_⟩⟩
  · intro k hk hgoing h hshows
    have hintact := p.intact_run meter observe start k
    obtain ⟨rest, hitems⟩ := hshows.operand
    obtain ⟨object, ho⟩ := Heap.exists_unfolds hintact.elements (Heap.path_nil _)
      (hintact.stack h (hitems ▸ List.mem_cons_self ..))
    refine ⟨object, ho, ho.not_contains_cycle (huntied hno k hk.le).acyclic (by simp), ?_⟩
    show (p.run meter (k + 1) observe start).state.output = _
    rw [run_succ, Run.next_going hgoing]
    exact hshows.output_turn ho.render_eq
  · intro outcome houtcome object hm
    have hintact := p.intact_run meter observe start n
    obtain ⟨ending, hending, houtcome⟩ := Option.map_eq_some_iff.1 houtcome
    cases ending with
    | failed fault => cases houtcome
    | completed =>
      obtain ⟨h, hr, hcopy⟩ := hintact.exists_object houtcome hm
      exact (huntied hno n le_rfl).acyclic.object_uncut hintact.elements hr hcopy

namespace Program

/-- A program that puts an array into another one and prints it. -/
def nesting : Program :=
  ⟨#[⟨.push, ["1"]⟩, ⟨.array, ["a"]⟩, ⟨.push, ["2"]⟩, ⟨.array, ["b"]⟩, ⟨.push, ["b"]⟩, ⟨.push, ["0"]⟩,
    ⟨.pop, ["arr", "a"]⟩, ⟨.push, ["a"]⟩, ⟨.print, []⟩, ⟨.ret, ["0"]⟩], .ofList [("main", 0)]⟩

theorem nesting_position {k : Nat} (hk : k < 10) :
    (nesting.run .plain k (fun seen _ => seen) ()).state.position = k := by
  have h : (List.range 10).map (fun k => (nesting.run .plain k (fun seen _ => seen) ()).state.position) =
      List.range 10 := by cbv
  exact List.map_inj_left.1 (h.trans (List.map_id _).symm) k (List.mem_range.2 hk)

/-- The inner array holds one integer, and integers hold nothing. -/
theorem nesting_open {k : Nat} (hk : k < 10) :
    ¬ nesting.Closes (nesting.run .plain k (fun seen _ => seen) ()).state := by
  rintro ⟨marker, name, array, position, element, elements, hstores, -, -, hpath⟩
  obtain ⟨index, rest, hitems, -⟩ := hstores.operands
  have hinstruction := hstores.instruction
  have hbound := hstores.bound
  rw [nesting_position hk] at hinstruction
  obtain rfl : k = 6 := by
    interval_cases k <;> first | rfl | cases hinstruction
  cases hinstruction
  have hstack : (nesting.run .plain 6 (fun seen _ => seen) ()).state.stack.items = [⟨6, 0⟩, ⟨5, 0⟩] := by cbv
  have houter : (nesting.run .plain 6 (fun seen _ => seen) ()).state.frame.bindings.lookup "a" =
      some ⟨2, 0⟩ := by cbv
  have hinner : (nesting.run .plain 6 (fun seen _ => seen) ()).state.heap.get? ⟨5, 0⟩ =
      some (.array #[⟨4, 0⟩, ⟨4, 0⟩]) := by cbv
  have hzero : (nesting.run .plain 6 (fun seen _ => seen) ()).state.heap.get? ⟨4, 0⟩ = some (.int 0) := by cbv
  rw [hstack] at hitems
  rw [houter] at hbound
  cases hitems
  cases hbound
  rcases ReflTransGen.cases_head_iff.1 hpath with hsame | ⟨x, ⟨elements, hv, hx⟩, hpath⟩
  · cases hsame
  · rw [hinner] at hv
    cases hv
    obtain rfl : x = ⟨4, 0⟩ := by simpa using hx
    rcases ReflTransGen.cases_head_iff.1 hpath with hsame | ⟨y, ⟨elements, hv, -⟩, -⟩
    · cases hsame
    · rw [hzero] at hv
      cases hv

set_option maxRecDepth 4000 in
theorem run_acyclic_nesting :
    let run := fun k => nesting.run .plain k (fun seen _ => seen) ()
    ofSource "main() { array a[1]; array b[2]; a[0] = b; print a; }" = .ok nesting ∧
    (∀ k < 10, ¬ ((run k).ending = none ∧ nesting.Closes (run k).state)) ∧
    (∀ k ≤ 10, (run k).state.heap.Acyclic) ∧
    nesting.Shows (run 8).state ⟨2, 0⟩ ∧
    (∃ object, (run 8).state.heap.Unfolds [] ⟨2, 0⟩ object ∧ ¬ object.Contains .cycle ∧
      (run 9).state.output = object.text ++ "\n") ∧
    ∃ outcome, (run 10).outcome? = some (.ok outcome) ∧ ∀ object ∈ outcome.objects, ¬ object.Contains .cycle := by
  intro run
  have hcompiled : ofSource "main() { array a[1]; array b[2]; a[0] = b; print a; }" = .ok nesting := by cbv
  have hno : ∀ k < 10, ¬ ((run k).ending = none ∧ nesting.Closes (run k).state) :=
    fun k hk h => nesting_open hk h.2
  obtain ⟨hacyclic, huncut⟩ := run_acyclic nesting .plain (fun seen _ => seen) () 10
  obtain ⟨hprints, hleft⟩ := huncut hno
  have hgoing : let before := nesting.run .plain 8 (fun seen _ => seen) ()
      (before.ending, before.state.output, before.state.stack.items) = (none, "", [⟨2, 0⟩]) := by cbv
  simp only [Prod.mk.injEq] at hgoing
  obtain ⟨hgoing, hquiet, hitems⟩ := hgoing
  have hshows : nesting.Shows (run 8).state ⟨2, 0⟩ :=
    ⟨by rw [nesting_position (by decide)]; rfl, [], hitems⟩
  obtain ⟨object, ho, hwhole, houtput⟩ := hprints 8 (by decide) hgoing ⟨2, 0⟩ hshows
  have hended : (nesting.run .plain 10 (fun seen _ => seen) ()).ending = some .completed := by cbv
  obtain ⟨outcome, houtcome⟩ := (nesting.intact_run .plain (fun seen _ => seen) () 10).exists_outcome
  have hleaves : (run 10).outcome? = some (.ok outcome) := by
    rw [Run.outcome?, hended, Option.map_some, houtcome]
  refine ⟨hcompiled, hno, hacyclic.2 hno, hshows, ⟨object, ho, hwhole, ?_⟩, outcome, hleaves,
    hleft outcome hleaves⟩
  rw [houtput, hquiet, String.empty_append]

/-- A program that puts an array into itself and prints it. -/
def knotting : Program :=
  ⟨#[⟨.push, ["1"]⟩, ⟨.array, ["a"]⟩, ⟨.push, ["a"]⟩, ⟨.push, ["0"]⟩, ⟨.pop, ["arr", "a"]⟩, ⟨.push, ["a"]⟩,
    ⟨.print, []⟩, ⟨.ret, ["0"]⟩], .ofList [("main", 0)]⟩

set_option maxRecDepth 4000 in
/-- The array is cut off where it is printed, and in what is left behind. -/
theorem cyclic_knotting :
    let run := fun k => knotting.run .plain k (fun seen _ => seen) ()
    ofSource "main() { array a[1]; a[0] = a; print a; }" = .ok knotting ∧
    ¬ (run 5).state.heap.Acyclic ∧
    (run 8).state.output = "[ [...] ]\n" ∧
    ∃ outcome, (run 8).outcome? = some (.ok outcome) ∧ outcome.globals = [("a", .array [.cycle])] := by
  intro run
  have hcompiled : ofSource "main() { array a[1]; a[0] = a; print a; }" = .ok knotting := by cbv
  have harray : (knotting.run .plain 5 (fun seen _ => seen) ()).state.heap.get? ⟨2, 0⟩ =
      some (.array #[⟨2, 0⟩]) := by cbv
  have hended : let last := knotting.run .plain 8 (fun seen _ => seen) ()
      (last.ending, last.state.output, last.state.stack.items, last.state.outermost.bindings,
        last.state.heap.object ⟨2, 0⟩) =
      (some .completed, "[ [...] ]\n", [], [("a", ⟨2, 0⟩)], .ok (.array [.cycle])) := by cbv
  simp only [Prod.mk.injEq] at hended
  obtain ⟨hended, houtput, hstack, hbindings, hcopy⟩ := hended
  obtain ⟨stats, houtcome⟩ : ∃ stats, (knotting.run .plain 8 (fun seen _ => seen) ()).state.outcome =
      .ok ⟨[], [("a", .array [.cycle])], stats⟩ := by
    unfold State.outcome Heap.variables
    rw [hstack, hbindings, List.mergeSort_singleton, List.mapM_cons, List.mapM_nil, hcopy]
    exact ⟨_, rfl⟩
  have hleaves : (run 8).outcome? = some (.ok ⟨[], [("a", .array [.cycle])], stats⟩) := by
    rw [Run.outcome?, hended, Option.map_some, houtcome]
  exact ⟨hcompiled, fun hacyclic => hacyclic ⟨2, 0⟩ (.single ⟨_, harray, by simp⟩), houtput, _, hleaves, rfl⟩

end Program

end Runs

end CMinusMinus
