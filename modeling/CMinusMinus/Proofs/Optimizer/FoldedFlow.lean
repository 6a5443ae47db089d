import CMinusMinus.Proofs.Optimizer.Grouping
import CMinusMinus.Proofs.Optimizer.Liveness

/-!
# Control flow of folded programs

A folding pass drops nothing but instructions that compute values, each of which is followed by the next
one. So what is kept is live in the folded program exactly if the instruction at its origin is live in the
old one, whatever arguments the instructions have.
-/

namespace CMinusMinus

namespace Folding

/-! ## What a step keeps -/

/-- The positions of the constants in the shadow. -/
def positions (f : Folding) : List Nat :=
  f.shadow.filterMap Shadow.position?

/-- After a step, the first `length` of what was kept are kept, and `last` behind them; the others pushed
constants that were known. -/
structure Steps (f : Folding) (i : Instruction) (n length : Nat) (last : Instruction) (g : Folding) :
    Prop where
  kept_eq : g.kept.toList = f.kept.toList.take length ++ [⟨last, n⟩]
  le : length ≤ f.kept.toList.length
  stands : last = i ∨ last.opcode = .push ∧ i.opcode.computes = true
  dropped : ∀ j, length ≤ j → j < f.kept.toList.length → j ∈ f.positions
  falls : g.positions.Pairwise (· > ·)
  known : ∀ j ∈ g.positions, j ∈ f.positions ∧ j < length ∨ j = length ∧ last.opcode = .push

section Steps

variable {f : Folding} {i : Instruction} {n : Nat} (hf : f.positions.Pairwise (· > ·))
  (hb : ∀ j ∈ f.positions, j < f.kept.toList.length)
include hf

theorem steps_fold (hi : i.opcode.computes = true) {length : Nat} (value : Int) {shadow : List Shadow}
    (hl : length ≤ f.kept.toList.length)
    (hd : ∀ j, length ≤ j → j < f.kept.toList.length → j ∈ f.positions)
    (hs : (length :: shadow.filterMap Shadow.position?).Sublist f.positions) :
    ∃ last, Steps f i n length last (f.fold length value n shadow) := by
  refine ⟨⟨.push, [Text.numeral value]⟩, ?_, hl, .inr ⟨rfl, hi⟩, hd, hf.sublist hs, fun j hj => ?_⟩
  · rw [Folding.fold, Array.toList_push, Array.toList_shrink]
  · rcases List.mem_cons.1 hj with rfl | hj
    · exact .inr ⟨rfl, rfl⟩
    · exact .inl ⟨hs.subset (List.mem_cons_of_mem _ hj), (List.pairwise_cons.1 (hf.sublist hs)).1 j hj⟩

include hb

theorem steps_keep {shadow : List Shadow}
    (hs : (shadow.filterMap Shadow.position?).Sublist f.positions) :
    Steps f i n f.kept.toList.length i (f.keep i n shadow) := by
  refine ⟨?_, Nat.le_refl _, .inl rfl, fun j hj hlt => absurd hlt (Nat.not_lt_of_le hj),
    hf.sublist hs, fun j hj => .inl ⟨hs.subset hj, hb j (hs.subset hj)⟩⟩
  rw [List.take_length]
  exact Array.toList_push

theorem steps_push (hi : i.opcode = .push) :
    Steps f i n f.kept.toList.length i (f.keep i n (ofPush i f.kept.size :: f.shadow)) := by
  unfold ofPush
  cases i.args.head?.bind Text.readInt? with
  | none =>
    have hs : ((Shadow.unknown :: f.shadow).filterMap Shadow.position?).Sublist f.positions :=
      List.Sublist.refl _
    exact steps_keep hf hb hs
  | some value =>
    have hkeep := steps_keep (n := n) (i := i) hf hb (List.Sublist.refl f.positions)
    refine ⟨hkeep.kept_eq, hkeep.le, hkeep.stands, hkeep.dropped, ?_, fun j hj => ?_⟩
    · exact List.pairwise_cons.2 ⟨fun j hj => Array.length_toList ▸ hb j hj, hf⟩
    · rcases List.mem_cons.1 hj with rfl | hj
      · exact .inr ⟨Array.length_toList.symm, hi⟩
      · exact .inl ⟨hj, hb j hj⟩

theorem steps_binary {op : BinaryOp} (hi : i.opcode = .binary op) :
    ∃ length last, Steps f i n length last (f.binary op i n) := by
  have hrest : ((Shadow.unknown :: f.shadow.drop 2).filterMap Shadow.position?).Sublist f.positions :=
    (List.drop_sublist 2 f.shadow).filterMap _
  unfold Folding.binary
  dsimp only
  split
  · rename_i value hfold
    obtain ⟨a, b, j, rest, hshadow, hsize, -⟩ := foldable?_eq_some hfold
    have hpositions : f.positions = (j + 1) :: j :: rest.filterMap Shadow.position? := by
      rw [positions, hshadow]
      rfl
    rw [hsize, hshadow]
    refine ⟨j, steps_fold hf (by rw [hi]; rfl) value ?_ (fun l hl hlt => ?_) ?_⟩
    · rw [Array.length_toList, hsize]
      omega
    · rw [Array.length_toList, hsize] at hlt
      rw [hpositions]
      obtain rfl | rfl : l = j + 1 ∨ l = j := by omega
      · simp
      · simp
    · rw [hpositions]
      exact List.sublist_cons_self ..
  · exact ⟨_, _, steps_keep hf hb hrest⟩

theorem steps_negation (hi : i.opcode = .neg) :
    ∃ length last, Steps f i n length last (f.negation i n) := by
  unfold Folding.negation
  split
  · rename_i value j rest hshadow
    have hpositions : f.positions = j :: rest.filterMap Shadow.position? := by
      rw [positions, hshadow]
      rfl
    split
    · rename_i hj
      refine ⟨j, steps_fold hf (by rw [hi]; rfl) (-value) ?_ (fun l hl hlt => ?_) ?_⟩
      · rw [Array.length_toList]
        omega
      · rw [Array.length_toList] at hlt
        rw [hpositions]
        obtain rfl : l = j := by omega
        simp
      · rw [hpositions]
    · refine ⟨_, _, steps_keep hf hb ?_⟩
      rw [hpositions]
      exact List.sublist_cons_self ..
  · exact ⟨_, _, steps_keep hf hb ((List.tail_sublist f.shadow).filterMap _)⟩

theorem exists_steps (labelled : Bool) :
    ∃ length last, Steps f i n length last (f.step labelled i n) := by
  have hclear : ∀ g, (if labelled then { f with shadow := [] } else f) = g →
      g.kept = f.kept ∧ g.positions.Sublist f.positions := by
    rintro g rfl
    cases labelled with
    | true => exact ⟨rfl, List.nil_sublist _⟩
    | false => exact ⟨rfl, List.Sublist.refl _⟩
  unfold Folding.step
  dsimp only
  generalize (if labelled then { f with shadow := [] } else f) = g at hclear
  obtain ⟨hk, hs⟩ := hclear g rfl
  have hfg := hf.sublist hs
  have hbg : ∀ j ∈ g.positions, j < g.kept.toList.length := fun j hj => hk ▸ hb j (hs.subset hj)
  -- what is known after the labels were looked at is what was known before, or less
  have hwiden : ∀ {length last g'}, Steps g i n length last g' → Steps f i n length last g' := by
    intro length last g' h
    exact ⟨hk ▸ h.kept_eq, hk ▸ h.le, h.stands, fun j hj hlt => hs.subset (h.dropped j hj (hk ▸ hlt)),
      h.falls, fun j hj => (h.known j hj).imp_left fun h => ⟨hs.subset h.1, h.2⟩⟩
  split
  · rename_i op ho
    obtain ⟨length, last, h⟩ := steps_binary (n := n) hfg hbg ho
    exact ⟨length, last, hwiden h⟩
  · rename_i ho
    obtain ⟨length, last, h⟩ := steps_negation (n := n) hfg hbg ho
    exact ⟨length, last, hwiden h⟩
  · rename_i ho
    exact ⟨_, _, hwiden (steps_push hfg hbg ho)⟩
  · exact ⟨_, _, hwiden (steps_keep hfg hbg (List.nil_sublist _))⟩
  · exact ⟨_, _, hwiden (steps_keep hfg hbg (List.nil_sublist _))⟩
  · exact ⟨_, _, hwiden (steps_keep hfg hbg (List.nil_sublist _))⟩
  · refine ⟨_, _, hwiden (steps_keep hfg hbg ?_)⟩
    have hunknown : (List.replicate (stackEffect i).2 Shadow.unknown).filterMap Shadow.position? = [] := by
      simp [Shadow.position?]
    rw [List.filterMap_append, hunknown]
    exact (List.drop_sublist _ g.shadow).filterMap _

end Steps

/-! ## What a pass keeps -/

/-- What holds of a pass before the instruction at position `n`: what is kept stands for the instruction at
its origin, and what was dropped computes. -/
structure Faithful (p : Program) (n : Nat) (f : Folding) : Prop where
  falls : f.positions.Pairwise (· > ·)
  pushes : ∀ j ∈ f.positions, ∃ s, f.kept.toList[j]? = some s ∧ s.instruction.opcode = .push
  rises : f.kept.toList.Pairwise fun a b => a.origin < b.origin
  below : ∀ s ∈ f.kept.toList, s.origin < n
  stands : ∀ s ∈ f.kept.toList, ∃ i, p.instructions[s.origin]? = some i ∧
    (s.instruction = i ∨ s.instruction.opcode = .push ∧ i.opcode.computes = true)
  covers : ∀ k i, k < n → p.instructions[k]? = some i →
    i.opcode.computes = true ∨ ∃ s ∈ f.kept.toList, s.origin = k
  last : ∀ k, n = k + 1 → ∃ s ∈ f.kept.toList, s.origin = k

theorem faithful_start (p : Program) : Faithful p 0 start :=
  ⟨by simp [positions, start], by simp [positions, start], by simp [start], by simp [start],
    by simp [start], fun _ _ hk => absurd hk (Nat.not_lt_zero _), fun _ hk => absurd hk (by omega)⟩

section Faithful

variable {p : Program} {n : Nat} {f : Folding}

theorem Faithful.lt_of_mem_positions (hf : Faithful p n f) {j : Nat} (hj : j ∈ f.positions) :
    j < f.kept.toList.length :=
  have ⟨_, hs, _⟩ := hf.pushes j hj
  (List.getElem?_eq_some_iff.1 hs).1

theorem Faithful.rising (hf : Faithful p n f) : Rising (f.kept.map (·.origin)) := by
  intro i j hi hj hij
  rw [Array.getElem_map, Array.getElem_map]
  exact List.pairwise_iff_getElem.1 hf.rises i j (by simpa using hi) (by simpa using hj) hij

theorem Faithful.computes (hf : Faithful p n f) {s : Survivor} (hs : s ∈ f.kept.toList)
    (hpush : s.instruction.opcode = .push) {i : Instruction} (hi : p.instructions[s.origin]? = some i) :
    i.opcode.computes = true := by
  obtain ⟨i', hi', h⟩ := hf.stands s hs
  cases hi.symm.trans hi'
  rcases h with rfl | ⟨-, hc⟩
  · rw [hpush]
    rfl
  · exact hc

theorem Faithful.step (hf : Faithful p n f) {i : Instruction} (hi : p.instructions[n]? = some i)
    (labelled : Bool) : Faithful p (n + 1) (f.step labelled i n) := by
  obtain ⟨length, last, h⟩ :=
    exists_steps hf.falls (fun _ => hf.lt_of_mem_positions) labelled (i := i) (n := n)
  have hlen : (f.kept.toList.take length).length = length := List.length_take_of_le h.le
  have hold : ∀ s ∈ f.kept.toList.take length, s ∈ f.kept.toList := fun s => List.mem_of_mem_take
  refine ⟨h.falls, ?_, ?_, ?_, ?_, ?_, ?_⟩ <;> rw [h.kept_eq]
  · intro j hj
    rcases h.known j hj with ⟨hj, hlt⟩ | ⟨rfl, hpush⟩
    · obtain ⟨s, hs, hpush⟩ := hf.pushes j hj
      refine ⟨s, ?_, hpush⟩
      rw [List.getElem?_append_left (by omega), List.getElem?_take_of_lt hlt, hs]
    · refine ⟨⟨last, n⟩, ?_, hpush⟩
      rw [List.getElem?_append_right (Nat.le_of_eq hlen), hlen, Nat.sub_self]
      rfl
  · refine List.pairwise_append.2 ⟨hf.rises.sublist (List.take_sublist ..), List.pairwise_singleton .., ?_⟩
    intro a ha b hb
    rw [List.mem_singleton.1 hb]
    exact hf.below a (hold a ha)
  · refine List.forall_mem_append.2 ⟨fun s hs => ?_, fun s hs => ?_⟩
    · exact Nat.lt_succ_of_lt (hf.below s (hold s hs))
    · rw [List.mem_singleton.1 hs]
      exact Nat.lt_succ_self n
  · refine List.forall_mem_append.2 ⟨fun s hs => hf.stands s (hold s hs), fun s hs => ?_⟩
    rw [List.mem_singleton.1 hs]
    exact ⟨i, hi, h.stands⟩
  · intro k i' hk hi'
    rcases Nat.lt_or_eq_of_le (Nat.le_of_lt_succ hk) with hk | rfl
    · rcases hf.covers k i' hk hi' with hc | ⟨s, hs, rfl⟩
      · exact .inl hc
      · obtain ⟨j, hj, rfl⟩ := List.getElem_of_mem hs
        rcases Nat.lt_or_ge j length with hlt | hge
        · refine .inr ⟨_, List.mem_append_left _ ?_, rfl⟩
          exact List.mem_take_iff_getElem.2 ⟨j, by omega, rfl⟩
        · -- a constant that is dropped was pushed by code that computes
          obtain ⟨s, hs', hpush⟩ := hf.pushes j (h.dropped j hge hj)
          rw [List.getElem?_eq_getElem hj] at hs'
          cases hs'
          exact .inl (hf.computes hs hpush hi')
    · exact .inr ⟨⟨last, k⟩, by simp, rfl⟩
  · intro k hk
    obtain rfl : n = k := by omega
    exact ⟨⟨last, n⟩, by simp, rfl⟩

end Faithful

theorem faithful_after {p : Program} {n : Nat} (hn : n ≤ p.size) : Faithful p n (after p n) := by
  induction n with
  | zero => exact faithful_start p
  | succ n ih =>
    have hi : p.instructions[n]? = some p.instructions[n] := Array.getElem?_eq_getElem hn
    rw [after_succ hi]
    exact (ih (Nat.le_of_succ_le hn)).step hi _

theorem faithful_run (p : Program) : Faithful p p.size (run p) := by
  rw [run_eq_after]
  exact faithful_after (Nat.le_refl _)

end Folding

/-! ## Where control goes -/

namespace Program

/-- What a folding pass keeps of the program. -/
def foldKept (p : Program) : Array Survivor :=
  (Folding.run p).kept

variable {p : Program}

theorem rising_foldKept (p : Program) : Rising (p.foldKept.map (·.origin)) :=
  (Folding.faithful_run p).rising

theorem movedTo_foldKept_lt {k : Nat} (hk : k < p.size) : movedTo p.foldKept k < p.foldKept.size := by
  obtain ⟨size, hsize⟩ : ∃ size, p.size = size + 1 := ⟨p.size - 1, by omega⟩
  obtain ⟨s, hs, ho⟩ := (Folding.faithful_run p).last size hsize
  obtain ⟨j, hj, rfl⟩ := List.getElem_of_mem hs
  have hj : j < p.foldKept.size := by simpa [foldKept] using hj
  have horigin : p.foldKept[j].origin = size := ho
  have := origin_lt_iff (rising_foldKept p) k hj
  omega

theorem lt_size_of_movedTo_lt {k : Nat} (hk : movedTo p.foldKept k < p.foldKept.size) : k < p.size := by
  have hbelow := (Folding.faithful_run p).below _ (Array.getElem_mem_toList hk)
  have hnot := origin_lt_iff (rising_foldKept p) k hk
  omega

/-- What stands between origins computes, and moves with what comes behind it. -/
theorem computes_of_dropped {k : Nat} {i : Instruction} (hi : p.instructions[k]? = some i)
    (hk : ∀ (j : Nat) (hj : j < p.foldKept.size), p.foldKept[j].origin ≠ k) :
    i.opcode.computes = true ∧ movedTo p.foldKept (k + 1) = movedTo p.foldKept k := by
  constructor
  · rcases (Folding.faithful_run p).covers k i (Array.getElem?_eq_some_iff.1 hi).1 hi with hc | ⟨s, hs, ho⟩
    · exact hc
    · obtain ⟨j, hj, rfl⟩ := List.getElem_of_mem hs
      exact absurd ho (hk j (by simpa [foldKept] using hj))
  · refine movedTo_eq (rising_foldKept p) (movedTo_le_size (rising_foldKept p) k) fun j hj => ?_
    rw [← origin_lt_iff (rising_foldKept p) k hj]
    have := hk j hj
    omega

end Program

/-- The error at another position. -/
def OptimizeError.move (f : Nat → Nat) : OptimizeError → OptimizeError
  | missingEntry => missingEntry
  | unresolvedLabel label position => unresolvedLabel label (f position)

namespace Program

variable {p : Program}

theorem getElem?_fold (p : Program) (j : Nat) :
    p.fold.instructions[j]? = p.foldKept[j]?.map (·.instruction) :=
  getElem?_ofSurvivors ..

theorem target_ofSurvivors (survivors : Array Survivor) (p : Program) (i : Instruction) (k : Nat) :
    (ofSurvivors survivors p.labels).target i (movedTo survivors k) =
      ((p.target i k).map (movedTo survivors)).mapError (.move (movedTo survivors)) := by
  simp only [Program.target, get?_ofSurvivors]
  cases p.labels.get? (i.args.headD "") <;> rfl

/-- Control goes from an instruction that was kept as it is where it went in the old program. -/
theorem successors_ofSurvivors {survivors : Array Survivor} (hr : Rising (survivors.map (·.origin)))
    {j : Nat} (hj : j < survivors.size)
    (hi : p.instructions[survivors[j].origin]? = some survivors[j].instruction) :
    (ofSurvivors survivors p.labels).successors j = ((p.successors survivors[j].origin).map
      (List.map (movedTo survivors))).mapError (.move (movedTo survivors)) := by
  have hget : (ofSurvivors survivors p.labels).instructions[j]? = some survivors[j].instruction := by
    rw [getElem?_ofSurvivors, Array.getElem?_eq_getElem hj]
    rfl
  have hnext := movedTo_origin_succ hr hj
  have htarget := target_ofSurvivors survivors p survivors[j].instruction survivors[j].origin
  rw [movedTo_origin hr hj] at htarget
  rw [successors_eq hget, successors_eq hi, htarget]
  obtain ⟨opcode, args⟩ := survivors[j].instruction
  cases p.target ⟨opcode, args⟩ survivors[j].origin <;> cases opcode <;>
    simp [Except.map, Except.mapError, hnext]

/-- Control goes from what is kept where it goes from the instruction at its origin. -/
theorem successors_fold {j : Nat} (hj : j < p.foldKept.size) :
    p.fold.successors j = ((p.successors p.foldKept[j].origin).map
      (List.map (movedTo p.foldKept))).mapError (.move (movedTo p.foldKept)) := by
  have hr := rising_foldKept p
  obtain ⟨i, hi, h⟩ := (Folding.faithful_run p).stands p.foldKept[j] (Array.getElem_mem_toList hj)
  rcases h with rfl | ⟨hpush, hc⟩
  · exact successors_ofSurvivors hr hj hi
  · have hget : p.fold.instructions[j]? = some p.foldKept[j].instruction := by
      rw [getElem?_fold, Array.getElem?_eq_getElem hj]
      rfl
    rw [successors_computes hi hc, successors_computes hget (by rw [hpush]; rfl)]
    simp [Except.map, Except.mapError, movedTo_origin_succ hr hj]

/-! ## What is live -/

theorem Live.move {k : Nat} (h : p.Live k) : p.fold.Live (movedTo p.foldKept k) := by
  obtain ⟨entry, he, hr⟩ := h
  have he' : p.fold.entry? = some (movedTo p.foldKept entry) :=
    (entry?_ofSurvivors _ p).trans (congrArg (Option.map _) he)
  have hsize : p.fold.size = p.foldKept.size := size_ofSurvivors ..
  refine ⟨_, he', ?_⟩
  induction hr with
  | start hs hv =>
    rw [List.mem_singleton.1 hs] at hv ⊢
    exact .start (by simp) (hsize ▸ movedTo_foldKept_lt hv)
  | @step v t targets h hn ht hl ih =>
    have hl' : movedTo p.foldKept t < p.fold.size := hsize ▸ movedTo_foldKept_lt hl
    by_cases hk : ∃ (j : Nat) (hj : j < p.foldKept.size), p.foldKept[j].origin = v
    · obtain ⟨j, hj, rfl⟩ := hk
      rw [movedTo_origin (rising_foldKept p) hj] at ih
      have hn' := successors_fold hj
      rw [hn] at hn'
      exact ih.step hn' (List.mem_map_of_mem ht) hl'
    · -- what is dropped is followed by an instruction that moves to the same place
      have hi := Array.getElem?_eq_getElem (show v < p.instructions.size from h.lt_size)
      obtain ⟨hc, hmoved⟩ := computes_of_dropped hi fun j hj he => hk ⟨j, hj, he⟩
      rw [successors_computes hi hc] at hn
      cases hn
      rw [List.mem_singleton.1 ht, hmoved]
      exact ih

/-- From a live instruction control comes to the next one that is kept. -/
theorem Live.origin {k : Nat} (h : p.Live k) (hl : movedTo p.foldKept k < p.foldKept.size) :
    p.Live p.foldKept[movedTo p.foldKept k].origin := by
  have hr := rising_foldKept p
  have hnot := origin_lt_iff hr k hl
  induction hd : p.foldKept[movedTo p.foldKept k].origin - k generalizing k with
  | zero =>
    obtain hk : p.foldKept[movedTo p.foldKept k].origin = k := by omega
    rw [hk]
    exact h
  | succ d ih =>
    have hi := Array.getElem?_eq_getElem (show k < p.instructions.size from h.lt_size)
    have hk : ∀ (j : Nat) (hj : j < p.foldKept.size), p.foldKept[j].origin ≠ k := by
      rintro j hj rfl
      simp only [movedTo_origin hr hj, Nat.sub_self] at hd
      cases hd
    obtain ⟨hc, hmoved⟩ := computes_of_dropped hi hk
    have hbelow := (Folding.faithful_run p).below p.foldKept[movedTo p.foldKept k]
      (Array.getElem_mem_toList hl)
    have hnext := h.step (successors_computes hi hc) (List.mem_singleton_self _) (by omega)
    simp only [← hmoved] at hd hl hnot ⊢
    exact ih hnext hl (origin_lt_iff hr _ hl) (by omega)

/-- What is kept is live if the instruction at its origin is. -/
theorem live_fold_iff {j : Nat} (hj : j < p.foldKept.size) :
    p.fold.Live j ↔ p.Live p.foldKept[j].origin := by
  have hr := rising_foldKept p
  refine ⟨fun h => ?_, fun h => movedTo_origin hr hj ▸ h.move⟩
  obtain ⟨entry', he', hreach⟩ := h
  obtain ⟨entry, he, rfl⟩ := Option.map_eq_some_iff.1 ((entry?_ofSurvivors _ p).symm.trans he')
  have hsize : p.fold.size = p.foldKept.size := size_ofSurvivors ..
  induction hreach with
  | start hs hv =>
    cases List.mem_singleton.1 hs
    exact Live.origin ⟨entry, he, .start (List.mem_singleton_self _) (lt_size_of_movedTo_lt hj)⟩ hj
  | @step v t' targets hreach hn ht' hl ih =>
    have hv : v < p.foldKept.size := hsize ▸ hreach.lt_size
    have hlive := ih hv
    rw [successors_fold hv] at hn
    cases hts : p.successors p.foldKept[v].origin with
    | error e =>
      rw [hts] at hn
      cases hn
    | ok ts =>
      rw [hts] at hn
      cases hn
      obtain ⟨t, ht, rfl⟩ := List.mem_map.1 ht'
      exact (hlive.step hts ht (lt_size_of_movedTo_lt hj)).origin hj

theorem exists_reachable_fold_iff :
    (∃ marks, p.fold.reachable = .ok marks) ↔ ∃ marks, p.reachable = .ok marks := by
  have hentry : p.fold.entry?.isSome = p.entry?.isSome := isSome_entry?_ofSurvivors _ p
  rw [exists_reachable_iff, exists_reachable_iff, hentry]
  refine and_congr_right fun _ => ⟨fun h k hlive => ?_, fun h j hlive => ?_⟩
  · by_cases hk : ∃ (j : Nat) (hj : j < p.foldKept.size), p.foldKept[j].origin = k
    · obtain ⟨j, hj, rfl⟩ := hk
      obtain ⟨targets', hn'⟩ := h j ((live_fold_iff hj).2 hlive)
      rw [successors_fold hj] at hn'
      cases hn : p.successors p.foldKept[j].origin with
      | ok targets => exact ⟨targets, rfl⟩
      | error e =>
        rw [hn] at hn'
        cases hn'
    · have hi := Array.getElem?_eq_getElem (show k < p.instructions.size from hlive.lt_size)
      have ⟨hc, _⟩ := computes_of_dropped hi fun j hj he => hk ⟨j, hj, he⟩
      exact ⟨_, successors_computes hi hc⟩
  · have hj : j < p.foldKept.size := (size_ofSurvivors ..).symm ▸ hlive.lt_size
    obtain ⟨targets, hn⟩ := h _ ((live_fold_iff hj).1 hlive)
    exact ⟨targets.map (movedTo p.foldKept), by rw [successors_fold hj, hn]; rfl⟩

end Program

end CMinusMinus
