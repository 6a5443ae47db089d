import CMinusMinus.Optimizer.Pass
import CMinusMinus.Proofs.Optimizer.FoldedFlow

/-!
# The passes commute

Folding what is left of a program without its unreachable code goes along with folding the whole program.
What a pass knows of the stack comes from live instructions only, or from dead ones only: control comes to
the first of some live instructions at a label, where a pass forgets what it knows, and the last of them is
a jump or a return, behind which nothing is known either. So what one pass keeps is what the other keeps
without what stands for dead instructions. Both ways round, a label moves to the number of live survivors
below it.
-/

namespace CMinusMinus

/-! ## Passes with more in front -/

/-- The survivor of an instruction at another position. -/
def Survivor.move (r : Nat → Nat) (s : Survivor) : Survivor :=
  { s with origin := r s.origin }

/-- What is known with `count` more instructions in front. -/
def Shadow.shift (count : Nat) : Shadow → Shadow
  | constant value position => constant value (count + position)
  | unknown => unknown

namespace Folding

/-- `f` is `h` with `front` in front of what is kept, and with other origins. -/
structure Beside (front : List Survivor) (r : Nat → Nat) (h f : Folding) : Prop where
  kept : f.kept.toList = front ++ h.kept.toList.map (.move r)
  shadow : f.shadow = h.shadow.map (.shift front.length)

section Beside

variable {front : List Survivor} {r : Nat → Nat} {h f : Folding} {i : Instruction} {n : Nat}

theorem Beside.size (hb : Beside front r h f) : f.kept.size = front.length + h.kept.size := by
  rw [← Array.length_toList, hb.kept]
  simp

theorem Beside.keep (hb : Beside front r h f) {shadow shadow' : List Shadow}
    (hs : shadow' = shadow.map (.shift front.length)) :
    Beside front r (h.keep i n shadow) (f.keep i (r n) shadow') := by
  refine ⟨?_, hs⟩
  simp only [Folding.keep, Array.toList_push, hb.kept, List.map_append, List.append_assoc]
  rfl

theorem Beside.fold (hb : Beside front r h f) {length : Nat} {value : Int} {shadow shadow' : List Shadow}
    (hs : shadow' = shadow.map (.shift front.length)) :
    Beside front r (h.fold length value n shadow)
      (f.fold (front.length + length) value (r n) shadow') := by
  refine ⟨?_, congrArg (_ :: ·) hs⟩
  simp only [Folding.fold, Array.toList_push, Array.toList_shrink, hb.kept, List.take_length_add_append,
    List.map_append, List.append_assoc, List.map_take]
  rfl

theorem foldable?_shift (count length : Nat) (op : BinaryOp) (shadow : List Shadow) :
    foldable? (count + length) op (shadow.map (.shift count)) = foldable? length op shadow := by
  match shadow with
  | .constant b j :: .constant a l :: rest =>
    simp only [List.map_cons, Shadow.shift, foldable?, Nat.add_assoc, Nat.add_left_cancel_iff]
  | [] | [.constant ..] | [.unknown] | .unknown :: _ :: _ | .constant _ _ :: .unknown :: _ => rfl

theorem Beside.binary (hb : Beside front r h f) (op : BinaryOp) :
    Beside front r (h.binary op i n) (f.binary op i (r n)) := by
  have hrest : f.shadow.drop 2 = (h.shadow.drop 2).map (.shift front.length) := by
    rw [hb.shadow, List.map_drop]
  unfold Folding.binary
  dsimp only
  rw [hrest, hb.size, hb.shadow, foldable?_shift]
  split
  · rename_i value hfold
    obtain ⟨-, -, j, -, -, hsize, -⟩ := foldable?_eq_some hfold
    rw [show front.length + h.kept.size - 2 = front.length + (h.kept.size - 2) by omega]
    exact hb.fold rfl
  · exact hb.keep rfl

theorem Beside.negation (hb : Beside front r h f) :
    Beside front r (h.negation i n) (f.negation i (r n)) := by
  unfold Folding.negation
  rw [hb.shadow, hb.size]
  rcases h.shadow with _ | ⟨⟨value, position⟩ | _, rest⟩
  · exact hb.keep rfl
  · simp only [List.map_cons, Shadow.shift, Nat.add_assoc, Nat.add_left_cancel_iff]
    split
    · exact hb.fold rfl
    · exact hb.keep rfl
  · exact hb.keep rfl

theorem Beside.push (hb : Beside front r h f) :
    Beside front r (h.keep i n (ofPush i h.kept.size :: h.shadow))
      (f.keep i (r n) (ofPush i f.kept.size :: f.shadow)) := by
  refine hb.keep ?_
  rw [hb.size, hb.shadow]
  unfold ofPush
  cases i.args.head?.bind Text.readInt? <;> rfl

theorem Beside.step (hb : Beside front r h f) (labelled : Bool) :
    Beside front r (h.step labelled i n) (f.step labelled i (r n)) := by
  have hclear : Beside front r (if labelled then { h with shadow := [] } else h)
      (if labelled then { f with shadow := [] } else f) := by
    cases labelled with
    | true => exact ⟨hb.kept, rfl⟩
    | false => exact hb
  unfold Folding.step
  dsimp only
  generalize (if labelled then { h with shadow := [] } else h) = h' at hclear
  generalize (if labelled then { f with shadow := [] } else f) = f' at hclear
  split
  · exact hclear.binary _
  · exact hclear.negation
  · exact hclear.push
  · exact hclear.keep rfl
  · exact hclear.keep rfl
  · exact hclear.keep rfl
  · refine hclear.keep ?_
    rw [List.map_append, List.map_drop, List.map_replicate, hclear.shadow]
    rfl

end Beside

/-! ## Steps -/

section Step

variable {f : Folding} {i : Instruction} {n : Nat}

theorem step_labelled : f.step true i n = ({ f with shadow := [] } : Folding).step true i n :=
  rfl

theorem shadow_step_of_not_falls (labelled : Bool) (hi : i.opcode.falls = false) :
    (f.step labelled i n).shadow = [] := by
  obtain ⟨opcode, args⟩ := i
  cases opcode with
  | jmp | ret => rfl
  | _ => cases hi

end Step

end Folding

/-! ## Both passes side by side -/

namespace Program

/-- Survivors without those of unmarked instructions, in the program of marked instructions. -/
def pruneKept (p : Program) (marks : Array Bool) (kept : List Survivor) : List Survivor :=
  (kept.filter fun s => marks[s.origin]? = some true).map (.move (movedTo (p.marked marks)))

section Pruned

variable {p : Program} {marks : Array Bool}

theorem pruneKept_append (kept more : List Survivor) :
    p.pruneKept marks (kept ++ more) = p.pruneKept marks kept ++ p.pruneKept marks more := by
  simp [pruneKept]

theorem pruneKept_live {kept : List Survivor} (h : ∀ s ∈ kept, marks[s.origin]? = some true) :
    p.pruneKept marks kept = kept.map (.move (movedTo (p.marked marks))) := by
  rw [pruneKept, List.filter_eq_self.2 fun s hs => decide_eq_true (h s hs)]

theorem pruneKept_dead {kept : List Survivor} (h : ∀ s ∈ kept, marks[s.origin]? ≠ some true) :
    p.pruneKept marks kept = [] := by
  rw [pruneKept, List.filter_eq_nil_iff.2 fun s hs => by simpa using h s hs]
  rfl

theorem movedTo_unmarked_succ {k : Nat} (hk : marks[k]? ≠ some true) :
    movedTo (p.marked marks) (k + 1) = movedTo (p.marked marks) k := by
  have hr := p.rising_marked marks
  refine movedTo_eq hr (movedTo_le_size hr k) fun j hj => ?_
  rw [← origin_lt_iff hr k hj]
  have hne : (p.marked marks)[j].origin ≠ k := fun he =>
    hk (he ▸ ((p.mem_marked marks).1 (Array.getElem_mem hj)).2)
  omega

theorem marks_ofSurvivors (survivors : Array Survivor) (labels : Labels) (m : Nat) :
    (ofSurvivors survivors labels).labels.marks m = true ↔
      ∃ k, labels.marks k = true ∧ movedTo survivors k = m := by
  simp only [Labels.marks_iff]
  constructor
  · rintro ⟨name, hm⟩
    obtain ⟨⟨name', k⟩, hk, he⟩ := List.mem_map.1 hm
    exact ⟨k, ⟨name', hk⟩, congrArg Prod.snd he⟩
  · rintro ⟨k, ⟨name, hk⟩, rfl⟩
    exact ⟨name, List.mem_map.2 ⟨_, hk, rfl⟩⟩

/-- Whether the instruction before a position is marked, or there is none. -/
def openAt (marks : Array Bool) : Nat → Bool
  | 0 => true
  | n + 1 => marks[n]? = some true

/-- Between marked instructions, no label of others is added. -/
theorem marks_prune {n : Nat} (hn : marks[n]? = some true) (hl : n < p.size)
    (ho : openAt marks n = true) :
    (ofSurvivors (p.marked marks) p.labels).labels.marks (movedTo (p.marked marks) n) =
      p.labels.marks n := by
  have hr := p.rising_marked marks
  rw [Bool.eq_iff_iff, marks_ofSurvivors]
  refine ⟨?_, fun h => ⟨n, h, rfl⟩⟩
  rintro ⟨k, hk, hkn⟩
  suffices k = n from this ▸ hk
  rcases Nat.lt_trichotomy k n with hlt | heq | hgt
  · obtain ⟨j, rfl⟩ : ∃ j, n = j + 1 := ⟨n - 1, by omega⟩
    have hle := movedTo_mono hr (Nat.le_of_lt_succ hlt)
    have hnext := movedTo_marked_succ (p := p) (.inr (of_decide_eq_true ho)) (Nat.lt_of_succ_lt hl)
    omega
  · exact heq
  · have hle := movedTo_mono hr (Nat.succ_le_of_lt hgt)
    have hnext := movedTo_marked_succ (p := p) (.inr hn) hl
    rw [Nat.succ_eq_add_one] at hle
    omega

end Pruned

end Program

namespace Folding

/-- The passes over a program and over its marked instructions, while the instructions are marked and while
they are not. What is known comes from the last of those instructions. -/
inductive Abreast (p : Program) (marks : Array Bool) : Bool → Folding → Folding → Prop where
  | live {front : List Survivor} {h f g : Folding} (old : Beside front id h f)
      (new : Beside (p.pruneKept marks front) (movedTo (p.marked marks)) h g)
      (all : ∀ s ∈ h.kept, marks[s.origin]? = some true) : Abreast p marks true f g
  | dead {front : List Survivor} {h f g : Folding} (old : Beside front id h f)
      (new : g.kept.toList = p.pruneKept marks front)
      (all : ∀ s ∈ h.kept, marks[s.origin]? ≠ some true) : Abreast p marks false f g

section Abreast

variable {p : Program} {marks : Array Bool} {live : Bool} {f g : Folding} {i : Instruction} {n : Nat}

theorem Abreast.kept (ha : Abreast p marks live f g) :
    g.kept.toList = p.pruneKept marks f.kept.toList := by
  have hid : ∀ kept : List Survivor, kept.map (.move id) = kept := fun kept => List.map_id kept
  cases ha with
  | live old new all =>
    rw [old.kept, new.kept, Program.pruneKept_append, hid, Program.pruneKept_live fun s hs =>
      all s (Array.mem_toList_iff.1 hs)]
  | dead old new all =>
    rw [old.kept, new, Program.pruneKept_append, hid, Program.pruneKept_dead fun s hs =>
      all s (Array.mem_toList_iff.1 hs), List.append_nil]

theorem beside_start (hf : f.shadow = []) (r : Nat → Nat) : Beside f.kept.toList r start f :=
  ⟨(List.append_nil _).symm, hf⟩

theorem abreast_live (hk : g.kept.toList = p.pruneKept marks f.kept.toList) (hf : f.shadow = [])
    (hg : g.shadow = []) : Abreast p marks true f g :=
  .live (beside_start hf id) (hk ▸ beside_start hg _) (by simp [start])

theorem abreast_dead (hk : g.kept.toList = p.pruneKept marks f.kept.toList) (hf : f.shadow = []) :
    Abreast p marks false f g :=
  .dead (beside_start hf id) hk (by simp [start])

theorem Abreast.step_live (ha : Abreast p marks true f g) (hn : marks[n]? = some true)
    (labelled : Bool) :
    Abreast p marks true (f.step labelled i n) (g.step labelled i (movedTo (p.marked marks) n)) := by
  cases ha with
  | live old new all =>
    refine .live (old.step labelled) (new.step labelled) fun s hs => ?_
    rcases mem_kept_step hs with hs | ⟨rfl, -⟩
    · exact all s hs
    · exact hn

theorem Abreast.step_dead (ha : Abreast p marks false f g) (hn : marks[n]? ≠ some true)
    (labelled : Bool) : Abreast p marks false (f.step labelled i n) g := by
  cases ha with
  | dead old new all =>
    refine .dead (old.step labelled) new fun s hs => ?_
    rcases mem_kept_step hs with hs | ⟨rfl, -⟩
    · exact all s hs
    · exact hn

theorem Abreast.enter (ha : Abreast p marks live f g) (hn : marks[n]? = some true) :
    Abreast p marks true (f.step true i n) (g.step true i (movedTo (p.marked marks) n)) := by
  have hclear : Abreast p marks true { f with shadow := [] } { g with shadow := [] } :=
    abreast_live ha.kept rfl rfl
  rw [step_labelled, step_labelled (f := g)]
  exact hclear.step_live hn true

end Abreast

/-- Marked instructions follow one another up to a jump or a return. -/
theorem shadow_after_eq_nil {p : Program} {marks : Array Bool} (h : p.reachable = .ok marks) {n : Nat}
    (hl : n < p.size) (hn : marks[n]? ≠ some true) (ho : Program.openAt marks n = true) :
    (after p n).shadow = [] := by
  cases n with
  | zero => rfl
  | succ n =>
    have hlive : p.Live n := (Program.marked_iff_live h n).1 (of_decide_eq_true ho)
    have hi := Array.getElem?_eq_getElem (show n < p.instructions.size from Nat.lt_of_succ_lt hl)
    obtain ⟨targets, hs⟩ := (Program.exists_reachable_iff.1 ⟨marks, h⟩).2 n hlive
    rw [after_succ hi]
    refine shadow_step_of_not_falls _ (Bool.eq_false_iff.2 fun hfalls => hn ?_)
    exact (Program.marked_iff_live h _).2
      (hlive.step hs ((Program.mem_successors hi hs _).2 (.inl ⟨hfalls, rfl⟩)) hl)

theorem abreast_after {p : Program} {marks : Array Bool} (h : p.reachable = .ok marks) {n : Nat}
    (hn : n ≤ p.size) :
    Abreast p marks (Program.openAt marks n) (after p n)
      (after (.ofSurvivors (p.marked marks) p.labels) (movedTo (p.marked marks) n)) := by
  have hr := p.rising_marked marks
  induction n with
  | zero =>
    have hzero : movedTo (p.marked marks) 0 = 0 :=
      movedTo_eq hr (Nat.zero_le _) fun j _ => by simp
    rw [hzero]
    exact abreast_live rfl rfl rfl
  | succ n ih =>
    have ha := ih (Nat.le_of_succ_le hn)
    have hi := Array.getElem?_eq_getElem (show n < p.instructions.size from hn)
    rw [after_succ hi]
    by_cases hm : marks[n]? = some true
    · have hopen : Program.openAt marks (n + 1) = true := decide_eq_true hm
      rw [hopen, Program.movedTo_marked_succ (.inr hm) hn,
        after_succ ((Program.fetch_prune (.inr hm)).trans hi)]
      cases ho : Program.openAt marks n with
      | true =>
        rw [ho] at ha
        rw [Program.marks_prune hm hn ho]
        exact ha.step_live hm _
      | false =>
        -- control comes to the first of some marked instructions at a label
        have hlabel : p.labels.marks n = true := by
          rcases ((Program.marked_iff_live h n).1 hm).cases with hlabel | ⟨j, rfl, hj⟩
          · exact hlabel
          · exact absurd ((Program.marked_iff_live h j).2 hj) (of_decide_eq_false ho)
        rw [hlabel, (Program.marks_ofSurvivors _ _ _).2 ⟨n, hlabel, rfl⟩]
        exact ha.enter hm
    · -- what is removed leaves the other pass where it is
      have hopen : Program.openAt marks (n + 1) = false := decide_eq_false hm
      rw [hopen, Program.movedTo_unmarked_succ hm]
      cases ho : Program.openAt marks n with
      | true => exact (abreast_dead ha.kept (shadow_after_eq_nil h hn hm ho)).step_dead hm _
      | false =>
        rw [ho] at ha
        exact ha.step_dead hm _

end Folding

namespace Program

variable {p : Program} {marks : Array Bool}

/-- A folding pass over the marked instructions keeps what one over all of them keeps for those. -/
theorem foldKept_prune (h : p.reachable = .ok marks) :
    (ofSurvivors (p.marked marks) p.labels).foldKept.toList = p.pruneKept marks p.foldKept.toList := by
  have hsize : (ofSurvivors (p.marked marks) p.labels).size = movedTo (p.marked marks) p.size :=
    (size_ofSurvivors ..).trans (movedTo_past_marked p marks (Nat.le_refl _)).symm
  rw [foldKept, foldKept, Folding.run_eq_after, Folding.run_eq_after, hsize]
  exact (Folding.abreast_after h (Nat.le_refl _)).kept

theorem toList_marked (p : Program) (marks : Array Bool) : (p.marked marks).toList =
    (p.instructions.toList.zipIdx.filter fun e => marks[e.2]? = some true).map fun e => ⟨e.1, e.2⟩ := by
  unfold marked
  rw [Array.toList_filterMap, Array.toList_zipIdx, ← List.filterMap_eq_map, List.filterMap_filter]
  simp

theorem toList_marked_fold (h : p.reachable = .ok marks) {marks' : Array Bool}
    (h' : p.fold.reachable = .ok marks') : (p.fold.marked marks').toList =
      (p.foldKept.toList.zipIdx.filter fun e => marks[e.1.origin]? = some true).map
        fun e => ⟨e.1.instruction, e.2⟩ := by
  have hlist : p.fold.instructions.toList = p.foldKept.toList.map (·.instruction) := Array.toList_map
  rw [toList_marked, hlist, List.zipIdx_map, List.filter_map, List.map_map]
  refine congrArg (List.map _) (List.filter_congr fun e he => ?_)
  obtain ⟨s, j⟩ := e
  have hs : p.foldKept.toList[j]? = some s := by simpa using List.mem_zipIdx_iff_getElem?.1 he
  obtain ⟨hj, rfl⟩ := List.getElem?_eq_some_iff.1 hs
  have hj : j < p.foldKept.size := by simpa using hj
  refine decide_eq_decide.2 ?_
  exact ((marked_iff_live h' j).trans (live_fold_iff hj)).trans (marked_iff_live h _).symm

/-- Folding first, a label comes to stand behind the live survivors whose origins are below it. -/
theorem movedTo_marked_fold (h : p.reachable = .ok marks) {marks' : Array Bool}
    (h' : p.fold.reachable = .ok marks') (k : Nat) :
    movedTo (p.fold.marked marks') (movedTo p.foldKept k) =
      p.foldKept.toList.countP fun s => s.origin < k && marks[s.origin]? = some true := by
  have hplaces : ∀ e ∈ p.foldKept.toList.zipIdx,
      (e.2 < movedTo p.foldKept k ↔ e.1.origin < k) := by
    rintro ⟨s, j⟩ he
    have hs : p.foldKept.toList[j]? = some s := by simpa using List.mem_zipIdx_iff_getElem?.1 he
    obtain ⟨hj, rfl⟩ := List.getElem?_eq_some_iff.1 hs
    have hj : j < p.foldKept.size := by simpa using hj
    exact (origin_lt_iff (rising_foldKept p) k hj).symm
  rw [movedTo_eq_countP (p.fold.rising_marked marks'), toList_marked_fold h h', List.countP_map,
    List.countP_filter]
  calc
    _ = p.foldKept.toList.zipIdx.countP
        ((fun s => s.origin < k && marks[s.origin]? = some true) ∘ Prod.fst) :=
      List.countP_congr fun e he => by simp [hplaces e he]
    _ = _ := by rw [← List.countP_map, List.zipIdx_map_fst]

/-- Removing first, it comes to the same place. -/
theorem movedTo_foldKept_prune (h : p.reachable = .ok marks) (k : Nat) :
    movedTo (ofSurvivors (p.marked marks) p.labels).foldKept (movedTo (p.marked marks) k) =
      p.foldKept.toList.countP fun s => s.origin < k && marks[s.origin]? = some true := by
  have hr := p.rising_marked marks
  have hplaces : ∀ s ∈ p.foldKept.toList, marks[s.origin]? = some true →
      (movedTo (p.marked marks) s.origin < movedTo (p.marked marks) k ↔ s.origin < k) := by
    intro s hs hm
    have hnext := movedTo_marked_succ (p := p) (.inr hm) ((Folding.faithful_run p).below s hs)
    refine ⟨fun hlt => Nat.lt_of_not_le fun hle => ?_, fun hlt => ?_⟩
    · exact Nat.not_lt_of_le (movedTo_mono hr hle) hlt
    · have hle := movedTo_mono hr (Nat.succ_le_of_lt hlt)
      rw [Nat.succ_eq_add_one] at hle
      omega
  rw [movedTo_eq_countP (rising_foldKept _), foldKept_prune h, pruneKept, List.countP_map,
    List.countP_filter]
  refine List.countP_congr fun s hs => ?_
  simp only [Function.comp, Survivor.move, Bool.and_eq_true, decide_eq_true_eq]
  exact and_congr_left fun hm => decide_eq_true_iff.trans (hplaces s hs hm)

theorem prune_fold (h : p.reachable = .ok marks) {marks' : Array Bool}
    (h' : p.fold.reachable = .ok marks') :
    ofSurvivors (p.fold.marked marks') p.fold.labels =
      (ofSurvivors (p.marked marks) p.labels).fold := by
  have hinstructions : (p.fold.marked marks').map (·.instruction) =
      (ofSurvivors (p.marked marks) p.labels).foldKept.map (·.instruction) := by
    apply Array.toList_inj.1
    rw [Array.toList_map, Array.toList_map, toList_marked_fold h h', foldKept_prune h, pruneKept,
      List.map_map, List.map_map]
    calc
      _ = ((p.foldKept.toList.zipIdx.filter
            ((fun s => decide (marks[s.origin]? = some true)) ∘ Prod.fst)).map Prod.fst).map
              (·.instruction) := (List.map_map ..).symm
      _ = _ := by rw [← List.filter_map, List.zipIdx_map_fst]; rfl
  have hlabels : (p.labels.remap (movedTo p.foldKept)).remap (movedTo (p.fold.marked marks')) =
      (p.labels.remap (movedTo (p.marked marks))).remap
        (movedTo (ofSurvivors (p.marked marks) p.labels).foldKept) := by
    simp only [Labels.remap, List.map_map, Function.comp_def, movedTo_marked_fold h h',
      movedTo_foldKept_prune h]
  exact congrArg₂ Program.mk hinstructions hlabels

theorem prune_eq_ok_iff {q : Program} : p.prune = .ok q ↔
    ∃ marks, p.reachable = .ok marks ∧ q = ofSurvivors (p.marked marks) p.labels := by
  unfold prune
  cases p.reachable <;> simp [Except.map, eq_comm]

theorem prune_fold_eq_ok {q : Program} (h : p.prune = .ok q) : p.fold.prune = .ok q.fold := by
  obtain ⟨marks, hm, rfl⟩ := prune_eq_ok_iff.1 h
  obtain ⟨marks', hm'⟩ := exists_reachable_fold_iff.2 ⟨marks, hm⟩
  exact prune_eq_ok_iff.2 ⟨marks', hm', (prune_fold hm hm').symm⟩

theorem exists_prune_fold_iff : (∃ q, p.fold.prune = .ok q) ↔ ∃ q, p.prune = .ok q := by
  refine ⟨?_, fun ⟨q, h⟩ => ⟨q.fold, prune_fold_eq_ok h⟩⟩
  rintro ⟨q, h⟩
  obtain ⟨marks', hm', -⟩ := prune_eq_ok_iff.1 h
  obtain ⟨marks, hm⟩ := exists_reachable_fold_iff.1 ⟨marks', hm'⟩
  exact ⟨_, prune_eq_ok_iff.2 ⟨marks, hm, rfl⟩⟩

end Program

namespace Pass

theorem select_folding_pruning : select "cd" = [folding, pruning] := by
  cbv

theorem select_pruning_folding : select "dc" = [pruning, folding] := by
  cbv

/-- The passes commute. Folding never fails, removal of unreachable code fails on a program exactly if it
fails on the folded program, and folding what it leaves gives the program that removal leaves of the folded
one, to the last argument and label. So the two selections of both passes always agree. -/
theorem folding_pruning_comm (p : Program) :
    folding.apply p = .ok p.fold ∧
    ((∃ q, pruning.apply p = .ok q) ↔ ∃ q, pruning.apply p.fold = .ok q) ∧
    (∀ q, pruning.apply p = .ok q → pruning.apply p.fold = .ok q.fold) ∧
    ∀ q, applyAll (select "cd") p = .ok q ↔ applyAll (select "dc") p = .ok q := by
  refine ⟨rfl, Program.exists_prune_fold_iff.symm, fun q => Program.prune_fold_eq_ok, fun q => ?_⟩
  rw [select_folding_pruning, select_pruning_folding]
  have hfolded : applyAll [folding, pruning] p = p.fold.prune := by
    change (p.fold.prune >>= fun q => .ok q) = p.fold.prune
    cases p.fold.prune <;> rfl
  have hpruned : applyAll [pruning, folding] p = p.prune.map Program.fold := by
    change (p.prune >>= fun q => .ok q.fold) = p.prune.map Program.fold
    cases p.prune <;> rfl
  rw [hfolded, hpruned]
  cases hq : p.prune with
  | ok q' =>
    rw [Program.prune_fold_eq_ok hq]
    rfl
  | error e =>
    refine iff_of_false (fun h => ?_) nofun
    obtain ⟨q', hq'⟩ := Program.exists_prune_fold_iff.1 ⟨q, h⟩
    cases hq.symm.trans hq'

end Pass

end CMinusMinus
