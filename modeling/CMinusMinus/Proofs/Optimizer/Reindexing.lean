import CMinusMinus.Proofs.Optimizer.Commutation
import Mathlib

/-!
# Where passes put labels

A pass hands over what it keeps with rising origins, and a label moves to the number of survivors below it.
What a survivor of folding stands for are the instructions behind the survivor before it, up to its origin:
the instruction at the origin alone, or code of which it pushes the value. Labels stand in front of that code
and never in it, so a label moves to what stands for the instruction that it pointed to.

A program may be built with any arguments. A folding pass does not look at those that an operation does not
take, so it divides the program as it does one in which every instruction has an accepted number of them.
-/

namespace CMinusMinus

/-! ## What a folding pass sees -/

/-- The instruction with an accepted number of arguments: the one that a `push` looks at, both of those with
which a `pop` takes two values, and empty ones where they do not matter. -/
def Instruction.seen (i : Instruction) : Instruction where
  opcode := i.opcode
  args :=
    match i.opcode with
    | .push => [i.args.headD ""]
    | .pop => if i.args.length = 2 then i.args else []
    | .print | .neg | .binary _ => []
    | _ => [""]

theorem Instruction.accepts_seen (i : Instruction) : i.seen.opcode.accepts i.seen.args.length = true := by
  obtain ⟨opcode, args⟩ := i
  cases opcode with
  | pop =>
    simp only [seen]
    split <;> simp_all [Opcode.accepts]
  | _ => rfl

def Survivor.seen (s : Survivor) : Survivor :=
  ⟨s.instruction.seen, s.origin⟩

def Program.seen (p : Program) : Program :=
  ⟨p.instructions.map Instruction.seen, p.labels⟩

theorem startOf_map_seen (kept : List Survivor) (j : Nat) :
    startOf (kept.map Survivor.seen) j = startOf kept j := by
  cases j with
  | zero => rfl
  | succ j =>
    simp only [startOf, List.getElem?_map, Option.map_map]
    rfl

namespace Folding

/-- A pass over what is seen of a program. -/
def seen (f : Folding) : Folding :=
  { f with kept := f.kept.map Survivor.seen }

section Seen

variable (f : Folding) (i : Instruction) (n : Nat)

theorem keep_seen (shadow : List Shadow) : f.seen.keep i.seen n shadow = (f.keep i n shadow).seen := by
  simp only [keep, seen, Array.map_push]
  rfl

theorem fold_seen (length : Nat) (value : Int) (shadow : List Shadow) :
    f.seen.fold length value n shadow = (f.fold length value n shadow).seen := by
  have hshrink : (f.kept.map Survivor.seen).shrink length = (f.kept.shrink length).map Survivor.seen := by
    apply Array.toList_inj.1
    simp only [Array.toList_shrink, Array.toList_map, List.map_take]
  simp only [Folding.fold, seen, hshrink, Array.map_push]
  rfl

theorem binary_seen (op : BinaryOp) : f.seen.binary op i.seen n = (f.binary op i n).seen := by
  have hsize : f.seen.kept.size = f.kept.size := Array.size_map
  unfold Folding.binary
  dsimp only
  rw [hsize, show f.seen.shadow = f.shadow from rfl]
  split
  · exact fold_seen ..
  · exact keep_seen ..

theorem negation_seen : f.seen.negation i.seen n = (f.negation i n).seen := by
  have hsize : f.seen.kept.size = f.kept.size := Array.size_map
  unfold Folding.negation
  rw [hsize, show f.seen.shadow = f.shadow from rfl]
  split
  · split
    · exact fold_seen ..
    · exact keep_seen ..
  · exact keep_seen ..

theorem ofPush_seen (hi : i.opcode = .push) (position : Nat) : ofPush i.seen position = ofPush i position := by
  obtain ⟨opcode, args⟩ := i
  obtain rfl : opcode = .push := hi
  cases args with
  | nil => rfl
  | cons arg args => rfl

theorem stackEffect_seen : stackEffect i.seen = stackEffect i := by
  obtain ⟨opcode, args⟩ := i
  cases opcode with
  | pop =>
    simp only [stackEffect, Instruction.seen]
    split <;> simp_all
  | _ => rfl

theorem step_seen (labelled : Bool) : f.seen.step labelled i.seen n = (f.step labelled i n).seen := by
  have hclear : (if labelled then { f.seen with shadow := [] } else f.seen) =
      (if labelled then { f with shadow := [] } else f).seen := by
    cases labelled <;> rfl
  unfold Folding.step
  rw [hclear, show i.seen.opcode = i.opcode from rfl]
  generalize (if labelled then { f with shadow := [] } else f) = g
  have hsize : g.seen.kept.size = g.kept.size := Array.size_map
  dsimp only
  split
  · exact binary_seen ..
  · exact negation_seen ..
  · rename_i hi
    rw [ofPush_seen i hi, hsize]
    exact keep_seen ..
  · exact keep_seen ..
  · exact keep_seen ..
  · exact keep_seen ..
  · rw [stackEffect_seen]
    exact keep_seen ..

end Seen

theorem run_seen (p : Program) : run p.seen = (run p).seen := by
  have hsize : p.seen.size = p.size := Array.size_map
  rw [run_eq_after, run_eq_after, hsize]
  generalize p.size = n
  induction n with
  | zero => simp [after, start, seen]
  | succ n ih =>
    have hget : p.seen.instructions[n]? = p.instructions[n]?.map Instruction.seen := Array.getElem?_map
    rw [after, after, hget, ih]
    cases p.instructions[n]? with
    | none => rfl
    | some i => exact step_seen ..

end Folding

/-! ## Groups of any program -/

/-- A survivor stands for old instructions, the first of which is at `start` and the last at its origin: for
itself alone, or for two or more that compute what it pushes. -/
inductive StandsFor (p : Program) (start : Nat) : Survivor → Prop where
  | itself {i : Instruction} (hi : p.instructions[start]? = some i) : StandsFor p start ⟨i, start⟩
  | group {origin : Nat} {value : Int} (hlt : start < origin)
      (hc : Computes ((p.segment start (origin + 1)).map Instruction.seen) value) :
      StandsFor p start ⟨⟨.push, [Text.numeral value]⟩, origin⟩

/-- Code that computes a constant ends in a `push` only if it is that `push`. -/
theorem Computes.last_push_iff {code : List Instruction} {i : Instruction} {value : Int}
    (h : Computes (code ++ [i]) value) : i.opcode = .push ↔ code = [] := by
  generalize hcode : code ++ [i] = whole at h
  cases h with
  | push h =>
    obtain ⟨rfl, hi⟩ := List.append_inj' (hcode.trans (List.nil_append _).symm) rfl
    obtain rfl := List.singleton_inj.1 hi
    simp
  | @binary op lhs rhs a b value hl hr hop =>
    obtain ⟨rfl, hi⟩ := List.append_inj' hcode rfl
    obtain rfl := List.singleton_inj.1 hi
    simp [hl.ne_nil]
  | @neg operand value ho =>
    obtain ⟨rfl, hi⟩ := List.append_inj' hcode rfl
    obtain rfl := List.singleton_inj.1 hi
    simp [ho.ne_nil]

theorem Replaces.cases_concat {code : List Instruction} {i j : Instruction} (h : Replaces j (code ++ [i])) :
    code = [] ∧ j = i ∨ ∃ value, j = ⟨.push, [Text.numeral value]⟩ ∧ Computes (code ++ [i]) value := by
  generalize hcode : code ++ [i] = whole at h
  cases h with
  | same =>
    obtain ⟨rfl, hi⟩ := List.append_inj' (hcode.trans (List.nil_append _).symm) rfl
    exact .inl ⟨rfl, (List.singleton_inj.1 hi).symm⟩
  | @constant _ value hc => exact .inr ⟨value, rfl, hc⟩

namespace Program

variable {p : Program}

theorem segment_seen (p : Program) (start stop : Nat) :
    p.seen.segment start stop = (p.segment start stop).map Instruction.seen := by
  simp [segment, seen, List.map_take, List.map_drop]

/-- What a folding pass keeps divides any program into groups, as far as the pass sees it. -/
theorem grouped_foldKept (p : Program) : Grouped p.seen (p.foldKept.toList.map Survivor.seen) p.size := by
  -- Groups are known of programs with accepted numbers of arguments, and what is seen of `p` is one.
  have ha : ∀ i ∈ p.seen.instructions, i.opcode.accepts i.args.length = true := by
    intro i hi
    obtain ⟨i, -, rfl⟩ := Array.mem_map.1 hi
    exact i.accepts_seen
  have hg := Folding.grouped_run ha
  rw [Folding.run_seen] at hg
  have hsize : p.seen.size = p.size := Array.size_map
  rw [hsize] at hg
  have hkept : (Folding.run p).seen.kept.toList = p.foldKept.toList.map Survivor.seen := Array.toList_map
  rwa [hkept] at hg

theorem standsFor_of_replaces {start origin : Nat} {i j : Instruction} (hle : start ≤ origin)
    (hi : p.instructions[origin]? = some i) (hleaves : Folding.Leaves i j)
    (hreplaces : Replaces j.seen ((p.segment start (origin + 1)).map Instruction.seen)) :
    StandsFor p start ⟨j, origin⟩ := by
  have hsegment : p.segment start (origin + 1) = p.segment start origin ++ [i] := by
    rw [← p.segment_append hle (Nat.le_succ origin), p.segment_succ hi]
  have hfront : (p.segment start origin).map Instruction.seen = [] ↔ origin ≤ start := by
    have hsize : origin ≤ p.size := Nat.le_of_lt (Array.getElem?_eq_some_iff.1 hi).1
    rw [List.map_eq_nil_iff, ← List.length_eq_zero_iff, p.length_segment hsize]
    omega
  rw [hsegment, List.map_append, List.map_singleton] at hreplaces
  -- A `push` at the end of code that computes a constant is all of that code, so a `push` stands for itself
  -- even where its argument is the numeral of the constant.
  cases hleaves with
  | same =>
    have hstart : origin ≤ start := by
      rcases hreplaces.cases_concat with ⟨hnil, -⟩ | ⟨value, hpush, hc⟩
      · exact hfront.1 hnil
      · exact hfront.1 (hc.last_push_iff.1 (congrArg Instruction.opcode hpush))
    obtain rfl := Nat.le_antisymm hle hstart
    exact .itself hi
  | constant ho value =>
    rcases hreplaces.cases_concat with ⟨-, hseen⟩ | ⟨value', hpush, hc⟩
    · exact absurd (congrArg Instruction.opcode hseen).symm ho
    · have hlt : start < origin := Nat.lt_of_not_le fun hge => ho (hc.last_push_iff.2 (hfront.2 hge))
      have hpush : (⟨.push, [Text.numeral value]⟩ : Instruction) = ⟨.push, [Text.numeral value']⟩ := hpush
      rw [hpush]
      refine .group hlt ?_
      rwa [hsegment, List.map_append, List.map_singleton]

/-- A survivor of folding stands for what is behind the one before it, and no label points into that. -/
theorem standsFor_foldKept {j : Nat} {s : Survivor} (hs : p.foldKept.toList[j]? = some s) :
    StandsFor p (startOf p.foldKept.toList j) s ∧
      ∀ k, startOf p.foldKept.toList j < k → k ≤ s.origin → p.labels.marks k = false := by
  have hg := p.grouped_foldKept
  have hget : (p.foldKept.toList.map Survivor.seen)[j]? = some s.seen := by
    rw [List.getElem?_map, hs]
    rfl
  have hle := hg.start_le j _ hget
  have hreplaces := hg.replaces j _ hget
  have hunlabelled := hg.unlabelled j _ hget
  rw [startOf_map_seen] at hle hreplaces hunlabelled
  rw [segment_seen] at hreplaces
  obtain ⟨i, hi, hleaves⟩ := Folding.mem_kept_run (Array.mem_toList_iff.1 (List.mem_of_getElem? hs))
  exact ⟨standsFor_of_replaces hle hi hleaves hreplaces, hunlabelled⟩

end Program

theorem StandsFor.le {p : Program} {start : Nat} {s : Survivor} (h : StandsFor p start s) :
    start ≤ s.origin := by
  cases h with
  | itself hi => exact Nat.le_refl _
  | group hlt hc => exact Nat.le_of_lt hlt

/-! ## Labels -/

/-- A survivor takes the place of the old instructions from `start` up to its origin: it stands for them,
it is the instruction with number `j` of the new program, to which the first and the last of them move, and
no label points to one of them but the first. -/
structure Replaced (p q : Program) (survivors : Array Survivor) (j start : Nat) (s : Survivor) : Prop where
  stands : StandsFor p start s
  get : q.instructions[j]? = some s.instruction
  first : movedTo survivors start = j
  last : movedTo survivors s.origin = j
  unlabelled : ∀ k, start < k → k ≤ s.origin → p.labels.marks k = false

/-- A program is put together from what a pass keeps of another one. Origins rise, so the search by halves
counts the survivors below a position; the labels keep their names and their order and move to these numbers,
and what takes the place of an instruction is where a label moves that points to it. -/
structure Reindexed (p q : Program) (survivors : Array Survivor) : Prop where
  made : q = .ofSurvivors survivors p.labels
  rises : (survivors.map (·.origin)).toList.Pairwise (· < ·)
  counts : ∀ k, below (survivors.map (·.origin)) k = survivors.toList.countP (·.origin < k)
  labels : q.labels.entries =
    p.labels.entries.map fun entry => (entry.1, survivors.toList.countP (·.origin < entry.2))
  inside : ∀ entry ∈ q.labels.entries, entry.2 ≤ q.size
  mono : Monotone (movedTo survivors)
  replaced : ∀ (j : Nat) (s : Survivor), survivors[j]? = some s → ∃ start, Replaced p q survivors j start s

theorem reindexed_ofSurvivors {p : Program} {survivors : Array Survivor}
    (hr : Rising (survivors.map (·.origin)))
    (hs : ∀ (j : Nat) (s : Survivor), survivors[j]? = some s →
      ∃ start, Replaced p (.ofSurvivors survivors p.labels) survivors j start s) :
    Reindexed p (.ofSurvivors survivors p.labels) survivors := by
  refine ⟨rfl, hr.pairwise, movedTo_eq_countP hr, ?_, fun _ => Program.label_le_ofSurvivors hr p.labels,
    fun _ _ => movedTo_mono hr, hs⟩
  exact List.map_congr_left fun entry _ => congrArg _ (movedTo_eq_countP hr entry.2)

namespace Program

theorem getElem?_ofSurvivors_of_get {survivors : Array Survivor} {j : Nat} {s : Survivor}
    (hs : survivors[j]? = some s) (labels : Labels) :
    (ofSurvivors survivors labels).instructions[j]? = some s.instruction := by
  rw [getElem?_ofSurvivors, hs]
  rfl

/-- Removal of unreachable code keeps instructions as they are. -/
theorem reindexed_marked (p : Program) (marks : Array Bool) :
    Reindexed p (ofSurvivors (p.marked marks) p.labels) (p.marked marks) := by
  have hr := p.rising_marked marks
  refine reindexed_ofSurvivors hr fun j s hs => ?_
  have hget := getElem?_ofSurvivors_of_get hs p.labels
  obtain ⟨hj, rfl⟩ := Array.getElem?_eq_some_iff.1 hs
  have hi := ((p.mem_marked marks).1 (Array.getElem_mem hj)).1
  exact ⟨_, .itself hi, hget, movedTo_origin hr hj, movedTo_origin hr hj,
    fun k hk hle => absurd hk (Nat.not_lt_of_le hle)⟩

theorem replaced_foldKept {p : Program} {j : Nat} {s : Survivor} (hs : p.foldKept[j]? = some s) :
    Replaced p p.fold p.foldKept j (startOf p.foldKept.toList j) s := by
  have hlist : p.foldKept.toList[j]? = some s := Array.getElem?_toList.trans hs
  obtain ⟨hstands, hunlabelled⟩ := standsFor_foldKept hlist
  have hget := getElem?_ofSurvivors_of_get hs p.labels
  have hr := p.rising_foldKept
  obtain ⟨hj, rfl⟩ := Array.getElem?_eq_some_iff.1 hs
  exact ⟨hstands, hget, (movedTo_eq_iff hr hj).2 ⟨Nat.le_refl _, hstands.le⟩, movedTo_origin hr hj,
    hunlabelled⟩

/-- A label that is not past the end stands at the start of a group. -/
theorem exists_replaced_of_marks {p : Program} {k : Nat} (hk : k < p.size)
    (hmarks : p.labels.marks k = true) :
    ∃ j s, p.foldKept[j]? = some s ∧ Replaced p p.fold p.foldKept j k s := by
  have hj := movedTo_foldKept_lt hk
  have hs := Array.getElem?_eq_getElem hj
  have hreplaced := replaced_foldKept hs
  obtain ⟨hstart, horigin⟩ := (movedTo_eq_iff p.rising_foldKept hj).1 rfl
  rcases Nat.lt_or_eq_of_le hstart with hlt | heq
  · -- The label would point into the group.
    rw [hreplaced.unlabelled k hlt horigin] at hmarks
    cases hmarks
  · rw [heq] at hreplaced
    exact ⟨_, _, hs, hreplaced⟩

/-- Both passes move labels along with what they keep. A folding pass divides any program into groups, of
which a label, if it is not past the end, can only point to the first instruction, and moves it to what stands
for the group. Removal of unreachable code keeps instructions as they are, so a label that points to one that
survives still points to it. -/
theorem labels_reindexed (p : Program) :
    (Reindexed p p.fold p.foldKept ∧ ∀ k < p.size, p.labels.marks k = true →
      ∃ j s, p.foldKept[j]? = some s ∧ Replaced p p.fold p.foldKept j k s) ∧
    ∀ q, p.prune = .ok q → ∃ marks, p.reachable = .ok marks ∧ Reindexed p q (p.marked marks) ∧
      ∀ s ∈ p.marked marks, p.instructions[s.origin]? = some s.instruction := by
  refine ⟨⟨?_, fun k => exists_replaced_of_marks⟩, fun q hq => ?_⟩
  · exact reindexed_ofSurvivors p.rising_foldKept fun j s hs => ⟨_, replaced_foldKept hs⟩
  · obtain ⟨marks, hm, rfl⟩ := prune_eq_ok_iff.1 hq
    exact ⟨marks, hm, p.reindexed_marked marks, fun s hs => ((p.mem_marked marks).1 hs).1⟩

/-- Operations with arguments, a label in front of each group, one of a removed instruction, and one past the
end. -/
theorem labels_reindexed_past :
    let p : Program := ⟨#[⟨.push, ["1", "x"]⟩, ⟨.push, ["02"]⟩, ⟨.binary .add, ["y"]⟩, ⟨.ret, ["0"]⟩,
      ⟨.push, ["5"]⟩, ⟨.neg, []⟩], .ofList [("main", 0), ("end", 3), ("gone", 4), ("past", 9)]⟩
    let folded : Program := ⟨#[⟨.push, ["3"]⟩, ⟨.ret, ["0"]⟩, ⟨.push, ["-5"]⟩],
      .ofList [("main", 0), ("end", 1), ("gone", 2), ("past", 3)]⟩
    let pruned : Program := ⟨#[⟨.push, ["3"]⟩, ⟨.ret, ["0"]⟩],
      .ofList [("main", 0), ("end", 1), ("gone", 2), ("past", 2)]⟩
    p.fold = folded ∧ Reindexed p folded p.foldKept ∧
    (4 < p.size ∧ p.labels.marks 4 = true ∧ ∃ j s, p.foldKept[j]? = some s ∧
      Replaced p folded p.foldKept j 4 s) ∧
    folded.prune = .ok pruned ∧ ∃ marks, folded.reachable = .ok marks ∧
      Reindexed folded pruned (folded.marked marks) ∧
      ∀ s ∈ folded.marked marks, folded.instructions[s.origin]? = some s.instruction := by
  intro p folded pruned
  have hfold : p.fold = folded := by cbv
  have hprune : folded.prune = .ok pruned := by cbv
  obtain ⟨hp, hlabels⟩ := (labels_reindexed p).1
  rw [hfold] at hp hlabels
  have hsize : 4 < p.size := by decide
  have hmarks : p.labels.marks 4 = true := by decide
  exact ⟨hfold, hp, ⟨hsize, hmarks, hlabels 4 hsize hmarks⟩, hprune, (labels_reindexed folded).2 pruned hprune⟩

end Program

end CMinusMinus
