import CMinusMinus.Proofs.Optimizer.Commutation

/-!
# Passes leave their output alone

Pruning a pruned program finds every instruction live: the ways of control between live instructions are
kept. Folding a folded program finds nothing to fold: going over the instructions that a pass has kept so far
gives the knowledge that the pass has, since a label moves to the start of the group that it pointed to, and
below a constant both know what was known before its group.
-/

namespace CMinusMinus

/-! ## Programs that are left alone -/

/-- Every instruction is kept, at its own position. -/
def untouched (code : List Instruction) : List Survivor :=
  code.zipIdx.map fun e => ⟨e.1, e.2⟩

theorem getElem?_untouched (code : List Instruction) (j : Nat) :
    (untouched code)[j]? = code[j]?.map fun i => ⟨i, j⟩ := by
  simp [untouched, Function.comp_def]

theorem untouched_concat (code : List Instruction) (i : Instruction) :
    untouched (code ++ [i]) = untouched code ++ [⟨i, code.length⟩] := by
  simp [untouched, List.zipIdx_append]

theorem movedTo_untouched {survivors : Array Survivor} {code : List Instruction}
    (hs : survivors.toList = untouched code) {k : Nat} (hk : k ≤ survivors.size) :
    movedTo survivors k = k := by
  have horigin : ∀ (j : Nat) (hj : j < survivors.size), survivors[j].origin = j := by
    intro j hj
    have hget : survivors.toList[j]? = some survivors[j] := by simp [hj]
    rw [hs, getElem?_untouched] at hget
    obtain ⟨i, -, hi⟩ := Option.map_eq_some_iff.1 hget
    rw [← hi]
  have hr : Rising (survivors.map (·.origin)) := by
    intro i j hi hj hij
    rw [Array.size_map] at hi hj
    rwa [Array.getElem_map, Array.getElem_map, horigin i hi, horigin j hj]
  refine movedTo_eq hr hk fun j hj => ?_
  rw [horigin j hj]

theorem Labels.remap_eq_self {labels : Labels} {f : Nat → Nat}
    (h : ∀ entry ∈ labels.entries, f entry.2 = entry.2) : labels.remap f = labels := by
  obtain ⟨entries, nodup⟩ := labels
  have hmap : entries.map (fun entry => (entry.1, f entry.2)) = entries := by
    refine (List.map_congr_left fun entry hm => ?_).trans (List.map_id entries)
    exact Prod.ext rfl (h entry hm)
  simp only [remap, hmap]

namespace Program

/-- A pass that keeps every instruction gives the program back, if no label is past its end. -/
theorem ofSurvivors_untouched {p : Program} {survivors : Array Survivor}
    (hs : survivors.toList = untouched p.instructions.toList)
    (hl : ∀ entry ∈ p.labels.entries, entry.2 ≤ p.size) : ofSurvivors survivors p.labels = p := by
  have hsize : survivors.size = p.size := by
    rw [← Array.length_toList, hs]
    simp [untouched, size]
  have hinstructions : survivors.map (·.instruction) = p.instructions := by
    apply Array.toList_inj.1
    rw [Array.toList_map, hs]
    simp [untouched, Function.comp_def]
  have hlabels : p.labels.remap (movedTo survivors) = p.labels :=
    Labels.remap_eq_self fun entry hm => movedTo_untouched hs (hsize ▸ hl entry hm)
  exact congrArg₂ Program.mk hinstructions hlabels

/-! ## Pruning -/

section Prune

variable {p : Program} {marks : Array Bool}

theorem toList_marked_of_forall (h : ∀ k < p.size, marks[k]? = some true) :
    (p.marked marks).toList = untouched p.instructions.toList := by
  rw [toList_marked, List.filter_eq_self.2, untouched]
  rintro ⟨i, k⟩ hm
  have hk : k < p.instructions.toList.length := (List.mem_zipIdx' hm).1
  exact decide_eq_true (h k (by simpa [size] using hk))

theorem successors_marked {j : Nat} (hj : j < (p.marked marks).size) :
    (ofSurvivors (p.marked marks) p.labels).successors j =
      ((p.successors (p.marked marks)[j].origin).map
        (List.map (movedTo (p.marked marks)))).mapError (.move (movedTo (p.marked marks))) :=
  successors_ofSurvivors (p.rising_marked marks) hj ((p.mem_marked marks).1 (Array.getElem_mem hj)).1

/-- A marked instruction stands where its position moves. -/
theorem exists_movedTo_marked {k : Nat} (hk : k < p.size) (hm : marks[k]? = some true) :
    ∃ (j : Nat) (hj : j < (p.marked marks).size), (p.marked marks)[j].origin = k ∧
      movedTo (p.marked marks) k = j := by
  obtain ⟨j, hj, hjk⟩ := p.exists_marked marks (Array.getElem?_eq_getElem hk) hm
  have horigin : (p.marked marks)[j].origin = k := by rw [hjk]
  exact ⟨j, hj, horigin, horigin ▸ movedTo_origin (p.rising_marked marks) hj⟩

/-- What is live stays live where the rest is removed. -/
theorem Live.prune (h : p.reachable = .ok marks) {k : Nat} (hk : p.Live k) :
    (ofSurvivors (p.marked marks) p.labels).Live (movedTo (p.marked marks) k) := by
  obtain ⟨entry, he, hr⟩ := hk
  have he' : Program.entry? (ofSurvivors (p.marked marks) p.labels) =
      some (movedTo (p.marked marks) entry) :=
    (entry?_ofSurvivors _ p).trans (congrArg (Option.map _) he)
  have hmoved : ∀ v, p.Live v →
      ∃ (j : Nat) (hj : j < (p.marked marks).size), (p.marked marks)[j].origin = v ∧
        movedTo (p.marked marks) v = j := fun v hv =>
    exists_movedTo_marked hv.lt_size ((marked_iff_live h v).2 hv)
  refine ⟨_, he', ?_⟩
  induction hr with
  | start hs hv =>
    obtain rfl := List.mem_singleton.1 hs
    obtain ⟨j, hj, -, hmove⟩ := hmoved _ ⟨_, he, .start (List.mem_singleton_self _) hv⟩
    refine .start (List.mem_singleton_self _) ?_
    rw [hmove, size_ofSurvivors]
    exact hj
  | @step v t targets hr hn ht hl ih =>
    obtain ⟨j, hj, rfl, hmove⟩ := hmoved v ⟨entry, he, hr⟩
    obtain ⟨j', hj', -, hmove'⟩ := hmoved t ⟨entry, he, hr.step hn ht hl⟩
    have hn' := successors_marked hj
    rw [hn] at hn'
    rw [hmove] at ih
    refine ih.step hn' (List.mem_map_of_mem ht) ?_
    rw [hmove', size_ofSurvivors]
    exact hj'

/-- Of what is left after pruning, everything is live. -/
theorem live_marked (h : p.reachable = .ok marks) {j : Nat}
    (hj : j < (ofSurvivors (p.marked marks) p.labels).size) :
    (ofSurvivors (p.marked marks) p.labels).Live j := by
  rw [size_ofSurvivors] at hj
  have hm := ((p.mem_marked marks).1 (Array.getElem_mem hj)).2
  have hlive := ((marked_iff_live h _).1 hm).prune h
  rwa [movedTo_origin (p.rising_marked marks) hj] at hlive

theorem prune_prune {q : Program} (h : p.prune = .ok q) : q.prune = .ok q := by
  obtain ⟨marks, hm, rfl⟩ := prune_eq_ok_iff.1 h
  have hknown := exists_reachable_iff.1 ⟨marks, hm⟩
  obtain ⟨marks', hm'⟩ : ∃ marks', (ofSurvivors (p.marked marks) p.labels).reachable = .ok marks' := by
    refine exists_reachable_iff.2 ⟨(isSome_entry?_ofSurvivors _ p).trans hknown.1, fun j hj => ?_⟩
    have hj : j < (p.marked marks).size := (size_ofSurvivors ..).symm ▸ hj.lt_size
    have hlive := (marked_iff_live hm _).1 ((p.mem_marked marks).1 (Array.getElem_mem hj)).2
    obtain ⟨targets, hn⟩ := hknown.2 _ hlive
    exact ⟨targets.map (movedTo (p.marked marks)), by rw [successors_marked hj, hn]; rfl⟩
  refine prune_eq_ok_iff.2 ⟨marks', hm', (ofSurvivors_untouched ?_ fun entry he => ?_).symm⟩
  · exact toList_marked_of_forall fun j hj => (marked_iff_live hm' j).2 (live_marked hm hj)
  · exact label_le_ofSurvivors (p.rising_marked marks) _ he

end Prune

end Program

/-! ## Labels and groups -/

section Labels

variable {kept : Array Survivor} (hr : Rising (kept.map (·.origin)))
include hr

/-- Where no label points behind the start of a group, the label of its survivor is the one there. -/
theorem marks_startOf {labels : Labels} {j : Nat} (hj : j < kept.size)
    (hu : ∀ k, startOf kept.toList j < k → k ≤ kept[j].origin → labels.marks k = false) :
    (Program.ofSurvivors kept labels).labels.marks j = labels.marks (startOf kept.toList j) := by
  have hstart := (movedTo_eq_iff hr hj).1 (movedTo_origin hr hj)
  rw [Bool.eq_iff_iff, Program.marks_ofSurvivors]
  constructor
  · rintro ⟨k, hk, hkj⟩
    obtain ⟨hle, hlast⟩ := (movedTo_eq_iff hr hj).1 hkj
    rcases Nat.lt_or_eq_of_le hle with hlt | heq
    · rw [hu k hlt hlast] at hk
      cases hk
    · rwa [heq]
  · exact fun hk => ⟨_, hk, (movedTo_eq_iff hr hj).2 ⟨Nat.le_refl _, hstart.1⟩⟩

end Labels

namespace Folding

/-! ## What is known below a constant -/

theorem suffix_of_unknowns {top : Shadow} {rest shadow : List Shadow} {count : Nat}
    (ht : top ≠ .unknown) (h : top :: rest <:+ List.replicate count .unknown ++ shadow) :
    top :: rest <:+ shadow := by
  induction count with
  | zero => exact h
  | succ count ih =>
    rw [List.replicate_succ, List.cons_append] at h
    rcases List.suffix_cons_iff.1 h with h | h
    · exact absurd (List.cons.inj h).1 ht
    · exact ih h

/-- A step keeps the instruction, or puts a constant in the place of the last ones that were kept, of which
the first one pushed a constant that was known. -/
inductive Turned (f : Folding) (labelled : Bool) (i : Instruction) (n : Nat) : Folding → Prop where
  | kept {shadow : List Shadow}
      (known : ∀ value j rest, Shadow.constant value j :: rest <:+ shadow →
        labelled = false ∧ Shadow.constant value j :: rest <:+ f.shadow ∨
          j = f.kept.size ∧ rest = if labelled then [] else f.shadow) :
      Turned f labelled i n (f.keep i n shadow)
  | folded {value old : Int} {length : Nat} {rest : List Shadow} (unlabelled : labelled = false)
      (inside : length < f.kept.size) (below : Shadow.constant old length :: rest <:+ f.shadow) :
      Turned f labelled i n (f.fold length value n rest)

section Turned

variable {f : Folding} {i : Instruction} {n : Nat}

theorem turned_keep {shadow : List Shadow} (count taken : Nat)
    (hs : shadow = List.replicate count .unknown ++ f.shadow.drop taken) :
    Turned f false i n (f.keep i n shadow) := by
  refine .kept fun value j rest h => .inl ⟨rfl, ?_⟩
  rw [hs] at h
  exact (suffix_of_unknowns (by simp) h).trans (List.drop_suffix ..)

theorem turned_binary (op : BinaryOp) : Turned f false i n (f.binary op i n) := by
  unfold Folding.binary
  dsimp only
  split
  · rename_i value hfold
    obtain ⟨a, b, j, rest, hshadow, hsize, -⟩ := foldable?_eq_some hfold
    have hbelow : Shadow.constant a j :: rest <:+ f.shadow := by
      rw [hshadow]
      exact List.suffix_cons ..
    rw [hsize, hshadow]
    exact .folded rfl (by omega) hbelow
  · exact turned_keep 1 2 rfl

theorem turned_negation : Turned f false i n (f.negation i n) := by
  unfold Folding.negation
  split
  · rename_i value j rest hshadow
    split
    · rename_i hj
      have hbelow : Shadow.constant value j :: rest <:+ f.shadow := by rw [hshadow]
      exact .folded rfl (by omega) hbelow
    · exact turned_keep 1 1 (by simp [hshadow])
  · exact turned_keep 1 1 (by simp)

theorem turned_push : Turned f false i n (f.keep i n (ofPush i f.kept.size :: f.shadow)) := by
  unfold ofPush
  cases i.args.head?.bind Text.readInt? with
  | none => exact turned_keep 1 0 rfl
  | some value =>
    refine .kept fun value' j rest h => ?_
    rcases List.suffix_cons_iff.1 h with h | h
    · cases h
      exact .inr ⟨rfl, rfl⟩
    · exact .inl ⟨rfl, h⟩

theorem turned_step_unlabelled : Turned f false i n (f.step false i n) := by
  unfold Folding.step
  simp only [Bool.false_eq_true, if_false]
  split
  · exact turned_binary _
  · exact turned_negation
  · exact turned_push
  · exact turned_keep 0 f.shadow.length (by simp)
  · exact turned_keep 0 f.shadow.length (by simp)
  · exact turned_keep 0 f.shadow.length (by simp)
  · exact turned_keep _ _ rfl

/-- At a label a step goes on from nothing known. -/
theorem turned_step (labelled : Bool) : Turned f labelled i n (f.step labelled i n) := by
  cases labelled with
  | false => exact turned_step_unlabelled
  | true =>
    have hclear : f.step true i n = ({ f with shadow := [] } : Folding).step false i n := rfl
    have hturned := turned_step_unlabelled (f := { f with shadow := [] }) (i := i) (n := n)
    rw [hclear]
    generalize ({ f with shadow := [] } : Folding).step false i n = g at hturned
    cases hturned with
    | kept known =>
      refine .kept fun value j rest h => .inr ?_
      rcases known value j rest h with ⟨-, h⟩ | h
      · cases List.suffix_nil.1 h
      · exact h
    | folded _ _ below => cases List.suffix_nil.1 below

end Turned

/-! ## A pass over what is kept so far -/

theorem after_congr {p q : Program} {n : Nat}
    (hi : ∀ j < n, p.instructions[j]? = q.instructions[j]?)
    (hm : ∀ j < n, p.labels.marks j = q.labels.marks j) : after p n = after q n := by
  induction n with
  | zero => rfl
  | succ n ih =>
    rw [after, after, hi n (Nat.lt_succ_self n), hm n (Nat.lt_succ_self n),
      ih (fun j hj => hi j (Nat.lt_succ_of_lt hj)) fun j hj => hm j (Nat.lt_succ_of_lt hj)]

/-- What holds of a pass before the instruction at position `n`: a pass over what is kept keeps all of it and
comes to know the same, and below a constant the same as before the constant. -/
structure Settled (p : Program) (n : Nat) (f : Folding) : Prop where
  stop : startOf f.kept.toList f.kept.size = n
  unlabelled : ∀ value j, .constant value j ∈ f.shadow →
    ∀ k, startOf f.kept.toList j < k → k < n → p.labels.marks k = false
  kept_eq : ∀ j ≤ f.kept.size, (after (.ofSurvivors f.kept p.labels) j).kept.toList =
    untouched ((f.kept.toList.take j).map (·.instruction))
  shadow_eq : (after (.ofSurvivors f.kept p.labels) f.kept.size).shadow = f.shadow
  known : ∀ value j rest, Shadow.constant value j :: rest <:+ f.shadow →
    rest = if (Program.ofSurvivors f.kept p.labels).labels.marks j then []
      else (after (.ofSurvivors f.kept p.labels) j).shadow

theorem settled_start (p : Program) : Settled p 0 start := by
  refine ⟨rfl, by simp [start], fun j hj => ?_, rfl, fun value j rest h => ?_⟩
  · obtain rfl := Nat.le_zero.1 hj
    rfl
  · cases List.suffix_nil.1 h

section Extend

variable {p : Program} {f g : Folding} {last : Instruction} {length n : Nat}
  (hk : g.kept.toList = f.kept.toList.take length ++ [⟨last, n⟩]) (hl : length ≤ f.kept.size)
include hk hl

theorem size_extend : g.kept.size = length + 1 := by
  rw [← Array.length_toList, hk, List.length_append, List.length_take_of_le (by simpa using hl)]
  rfl

theorem startOf_extended {j : Nat} (hj : j ≤ length) :
    startOf g.kept.toList j = startOf f.kept.toList j := by
  rw [hk, startOf_extend (by simpa using hl) _ hj]

theorem getElem?_extend {j : Nat} (hj : j < length) : g.kept[j]? = f.kept[j]? := by
  have hlength : j < (f.kept.toList.take length).length := by
    rw [List.length_take_of_le (by simpa using hl)]
    exact hj
  rw [← Array.getElem?_toList, hk, List.getElem?_append_left hlength, List.getElem?_take_of_lt hj,
    Array.getElem?_toList]

theorem getElem?_extend_last : g.kept[length]? = some ⟨last, n⟩ := by
  have hlength := List.length_take_of_le (show length ≤ f.kept.toList.length by simpa using hl)
  rw [← Array.getElem?_toList, hk, List.getElem?_append_right (Nat.le_of_eq hlength), hlength,
    Nat.sub_self]
  rfl

variable (hf : Rising (f.kept.map (·.origin))) (hg : Rising (g.kept.map (·.origin)))
include hf hg

theorem marks_extend {j : Nat} (hj : j < length) :
    (Program.ofSurvivors g.kept p.labels).labels.marks j =
      (Program.ofSurvivors f.kept p.labels).labels.marks j := by
  have hjf : j < f.kept.size := Nat.lt_of_lt_of_le hj hl
  have hjg : j < g.kept.size := by
    rw [size_extend hk hl]
    exact Nat.lt_succ_of_lt hj
  have hget := getElem?_extend hk hl hj
  rw [Array.getElem?_eq_getElem hjf, Array.getElem?_eq_getElem hjg] at hget
  have hmoved : ∀ k, movedTo g.kept k = j ↔ movedTo f.kept k = j := by
    intro k
    rw [movedTo_eq_iff hg hjg, movedTo_eq_iff hf hjf, startOf_extended hk hl (Nat.le_of_lt hj),
      Option.some.inj hget]
  rw [Bool.eq_iff_iff, Program.marks_ofSurvivors, Program.marks_ofSurvivors]
  simp only [hmoved]

theorem after_extend {j : Nat} (hj : j ≤ length) :
    after (.ofSurvivors g.kept p.labels) j = after (.ofSurvivors f.kept p.labels) j := by
  refine after_congr (fun l hlj => ?_) fun l hlj => ?_
  · rw [Program.getElem?_ofSurvivors, Program.getElem?_ofSurvivors,
      getElem?_extend hk hl (Nat.lt_of_lt_of_le hlj hj)]
  · exact marks_extend hk hl hf hg (Nat.lt_of_lt_of_le hlj hj)

theorem after_extend_succ :
    after (.ofSurvivors g.kept p.labels) (length + 1) = (after (.ofSurvivors f.kept p.labels) length).step
      ((Program.ofSurvivors g.kept p.labels).labels.marks length) last length := by
  have hi : (Program.ofSurvivors g.kept p.labels).instructions[length]? = some last := by
    rw [Program.getElem?_ofSurvivors, getElem?_extend_last hk hl]
    rfl
  rw [after_succ hi, after_extend hk hl hf hg (Nat.le_refl _)]

omit hf in
/-- If no label points behind the start of the new group, its label is the one there. -/
theorem marks_extend_last
    (hu : ∀ k, startOf f.kept.toList length < k → k ≤ n → p.labels.marks k = false) :
    (Program.ofSurvivors g.kept p.labels).labels.marks length =
      p.labels.marks (startOf f.kept.toList length) := by
  have hlt : length < g.kept.size := by
    rw [size_extend hk hl]
    exact Nat.lt_succ_self _
  have hlast := getElem?_extend_last hk hl
  rw [Array.getElem?_eq_getElem hlt] at hlast
  have hstart := startOf_extended hk hl (Nat.le_refl _)
  rw [← hstart]
  refine marks_startOf hg hlt fun k hk hkn => hu k (hstart ▸ hk) ?_
  rwa [Option.some.inj hlast] at hkn

/-- A step keeps the invariant if a pass over what is kept keeps the new instruction and comes to know what
the step does. -/
theorem Settled.extend (hs : Settled p n f)
    (hu : ∀ k, startOf f.kept.toList length < k → k ≤ n → p.labels.marks k = false)
    (hkept : (after (.ofSurvivors g.kept p.labels) (length + 1)).kept.toList =
      (after (.ofSurvivors f.kept p.labels) length).kept.toList ++ [⟨last, length⟩])
    (hshadow : (after (.ofSurvivors g.kept p.labels) (length + 1)).shadow = g.shadow)
    (hknown : ∀ value j rest, Shadow.constant value j :: rest <:+ g.shadow →
      (p.labels.marks n = false ∧ Shadow.constant value j :: rest <:+ f.shadow ∧ j < length) ∨
        (j = length ∧ rest = if (Program.ofSurvivors g.kept p.labels).labels.marks length then []
          else (after (.ofSurvivors f.kept p.labels) length).shadow)) : Settled p (n + 1) g := by
  have hsize := size_extend hk hl
  refine ⟨?_, fun value j hm k hjk hkn => ?_, fun j hj => ?_, ?_, fun value j rest h => ?_⟩
  · rw [hsize]
    exact startOf_succ (s := ⟨last, n⟩) (by
      rw [Array.getElem?_toList]
      exact getElem?_extend_last hk hl)
  · obtain ⟨above, rest, hsplit⟩ := List.append_of_mem hm
    rcases hknown value j rest ⟨above, hsplit.symm⟩ with ⟨hn, hsuffix, hj⟩ | ⟨rfl, -⟩
    · rw [startOf_extended hk hl (Nat.le_of_lt hj)] at hjk
      rcases Nat.lt_or_eq_of_le (Nat.le_of_lt_succ hkn) with hlt | rfl
      · exact hs.unlabelled value j (hsuffix.subset (List.mem_cons_self ..)) k hjk hlt
      · exact hn
    · rw [startOf_extended hk hl (Nat.le_refl _)] at hjk
      exact hu k hjk (Nat.le_of_lt_succ hkn)
  · rw [hsize] at hj
    rcases Nat.lt_or_eq_of_le hj with hj | rfl
    · have hj := Nat.le_of_lt_succ hj
      have htake : g.kept.toList.take j = f.kept.toList.take j := by
        rw [hk, List.take_append_of_le_length, List.take_take, Nat.min_eq_left hj]
        rw [List.length_take_of_le (by simpa using hl)]
        exact hj
      rw [after_extend hk hl hf hg hj, hs.kept_eq j (Nat.le_trans hj hl), htake]
    · have htake : g.kept.toList.take (length + 1) = f.kept.toList.take length ++ [⟨last, n⟩] := by
        rw [← hsize, ← Array.length_toList, List.take_length, hk]
      rw [hkept, hs.kept_eq length hl, htake, List.map_append, List.map_singleton, untouched_concat,
        List.length_map, List.length_take_of_le (by simpa using hl)]
  · rw [hsize, hshadow]
  · rcases hknown value j rest h with ⟨-, hsuffix, hj⟩ | ⟨rfl, hrest⟩
    · rw [marks_extend hk hl hf hg hj, after_extend hk hl hf hg (Nat.le_of_lt hj)]
      exact hs.known value j rest hsuffix
    · rw [after_extend hk hl hf hg (Nat.le_refl _)]
      exact hrest

end Extend

theorem Shadow.map_shift_zero (shadow : List Shadow) : shadow.map (.shift 0) = shadow := by
  refine (List.map_congr_left fun top _ => ?_).trans (List.map_id shadow)
  cases top <;> simp [Shadow.shift]

section Step

variable {p : Program} {f : Folding} {i : Instruction} {n : Nat} (hs : Settled p n f)
  (hf : Faithful p n f)
include hs

theorem Settled.kept_all :
    (after (.ofSurvivors f.kept p.labels) f.kept.size).kept.toList =
      untouched (f.kept.toList.map (·.instruction)) := by
  rw [hs.kept_eq _ (Nat.le_refl _), ← Array.length_toList, List.take_length]

/-- The pass over what is kept stands where the pass itself does, but for the origins. -/
theorem Settled.beside : ∃ r : Nat → Nat, r f.kept.size = n ∧
    Beside [] r (after (.ofSurvivors f.kept p.labels) f.kept.size) f := by
  refine ⟨fun j => (f.kept[j]?.map (·.origin)).getD n, by simp, ?_, ?_⟩
  · rw [hs.kept_all, List.nil_append]
    refine List.ext_getElem? fun j => ?_
    rw [List.getElem?_map, getElem?_untouched, List.getElem?_map, Array.getElem?_toList]
    cases hj : f.kept[j]? with
    | none => rfl
    | some s => simp [Survivor.move, hj]
  · rw [hs.shadow_eq, List.length_nil, Shadow.map_shift_zero]

include hf

omit hs in
theorem Faithful.lt_of_suffix {value value' : Int} {j j' : Nat} {rest : List Shadow}
    (h : Shadow.constant value j :: rest <:+ f.shadow) (hm : Shadow.constant value' j' ∈ rest) : j' < j := by
  have hfalls := hf.falls.sublist (h.sublist.filterMap Shadow.position?)
  exact (List.pairwise_cons.1 hfalls).1 j' (List.mem_filterMap.2 ⟨_, hm, rfl⟩)

/-- Where the pass folds, what stays of the code of the constant is one `push`. -/
theorem Settled.fold {value old : Int} {length : Nat} {rest : List Shadow} (hn : p.labels.marks n = false)
    (hl : length < f.kept.size) (hb : Shadow.constant old length :: rest <:+ f.shadow)
    (hg : Faithful p (n + 1) (f.fold length value n rest)) :
    Settled p (n + 1) (f.fold length value n rest) := by
  have hk : (f.fold length value n rest).kept.toList =
      f.kept.toList.take length ++ [⟨⟨.push, [Text.numeral value]⟩, n⟩] := by
    rw [Folding.fold, Array.toList_push, Array.toList_shrink]
  have hle := Nat.le_of_lt hl
  have hu : ∀ k, startOf f.kept.toList length < k → k ≤ n → p.labels.marks k = false := by
    intro k hk hkn
    rcases Nat.lt_or_eq_of_le hkn with hlt | rfl
    · exact hs.unlabelled old length (hb.subset (List.mem_cons_self ..)) k hk hlt
    · exact hn
  -- the `push` has the label that the first instruction of the old code had
  have hmarks : (Program.ofSurvivors (f.fold length value n rest).kept p.labels).labels.marks length =
      (Program.ofSurvivors f.kept p.labels).labels.marks length := by
    rw [marks_extend_last hk hle hg.rising hu]
    refine (marks_startOf hf.rising hl fun k hk hkl => hu k hk ?_).symm
    exact Nat.le_of_lt (Nat.lt_of_le_of_lt hkl (hf.below _ (Array.getElem_mem_toList hl)))
  have hrest := hs.known old length rest hb
  have hstep := after_extend_succ (p := p) hk hle hf.rising hg.rising
  have hlength : (after (.ofSurvivors f.kept p.labels) length).kept.size = length := by
    rw [← Array.length_toList, hs.kept_eq length hle]
    simpa [untouched] using hle
  have hpush : ofPush ⟨.push, [Text.numeral value]⟩ length = .constant value length := by
    simp only [ofPush, List.head?_cons, Option.bind_some, Text.readInt?_numeral]
  refine hs.extend hk hle hf.rising hg.rising hu ?_ ?_ fun value' j rest' h => ?_
  · rw [hstep]
    cases (Program.ofSurvivors (f.fold length value n rest).kept p.labels).labels.marks length <;>
      simp [Folding.step, keep]
  · rw [hstep, hmarks]
    refine Eq.trans ?_ (congrArg (Shadow.constant value length :: ·) hrest.symm)
    cases (Program.ofSurvivors f.kept p.labels).labels.marks length <;>
      simp [Folding.step, keep, hlength, hpush]
  · rcases List.suffix_cons_iff.1 h with h | h
    · cases h
      exact .inr ⟨rfl, by rw [hmarks]; exact hrest⟩
    · have hj := hf.lt_of_suffix hb (h.subset (List.mem_cons_self ..))
      exact .inl ⟨hn, h.trans ((List.suffix_cons _ _).trans hb), hj⟩

/-- Where the pass keeps an instruction, a pass over what is kept does the same. -/
theorem Settled.keep {labelled : Bool} {shadow : List Shadow} (hn : p.labels.marks n = labelled)
    (hstep : f.step labelled i n = f.keep i n shadow)
    (hknown : ∀ value j rest, Shadow.constant value j :: rest <:+ shadow →
      labelled = false ∧ Shadow.constant value j :: rest <:+ f.shadow ∨
        j = f.kept.size ∧ rest = if labelled then [] else f.shadow)
    (hg : Faithful p (n + 1) (f.keep i n shadow)) : Settled p (n + 1) (f.keep i n shadow) := by
  have hk : (f.keep i n shadow).kept.toList = f.kept.toList.take f.kept.size ++ [⟨i, n⟩] := by
    rw [← Array.length_toList, List.take_length]
    exact Array.toList_push
  have hle := Nat.le_refl f.kept.size
  have hu : ∀ k, startOf f.kept.toList f.kept.size < k → k ≤ n → p.labels.marks k = false := by
    intro k hk hkn
    rw [hs.stop] at hk
    omega
  have hmarks : (Program.ofSurvivors (f.keep i n shadow).kept p.labels).labels.marks f.kept.size =
      labelled := by
    rw [marks_extend_last hk hle hg.rising hu, hs.stop, hn]
  have hsucc := after_extend_succ (p := p) hk hle hf.rising hg.rising
  rw [hmarks] at hsucc
  obtain ⟨r, hr, hbeside⟩ := hs.beside
  have hbeside := hbeside.step (i := i) (n := f.kept.size) labelled
  rw [hr, hstep, ← hsucc] at hbeside
  have hshadow := hbeside.shadow
  rw [List.length_nil, Shadow.map_shift_zero] at hshadow
  refine hs.extend hk hle hf.rising hg.rising hu ?_ hshadow.symm fun value j rest h => ?_
  · -- as many instructions are kept, so it is no fold
    have hsize := hbeside.size
    have hold : (after (.ofSurvivors f.kept p.labels) f.kept.size).kept.size = f.kept.size := by
      rw [← Array.length_toList, hs.kept_all]
      simp [untouched]
    have hturned := turned_step (f := after (.ofSurvivors f.kept p.labels) f.kept.size) (i := i)
      (n := f.kept.size) labelled
    rw [← hsucc] at hturned
    generalize after (.ofSurvivors (f.keep i n shadow).kept p.labels) (f.kept.size + 1) = g at hturned hsize
    cases hturned with
    | kept => exact Array.toList_push
    | folded _ inside _ =>
      simp [Folding.keep, Folding.fold] at hsize
      omega
  · rw [hmarks, hs.shadow_eq]
    rcases hknown value j rest h with ⟨rfl, h⟩ | h
    · exact .inl ⟨hn, h, Array.length_toList ▸ hf.lt_of_mem_positions
        (List.mem_filterMap.2 ⟨_, h.subset (List.mem_cons_self ..), rfl⟩)⟩
    · exact .inr h

theorem Settled.step (hi : p.instructions[n]? = some i) :
    Settled p (n + 1) (f.step (p.labels.marks n) i n) := by
  have hg := hf.step hi (p.labels.marks n)
  have hturned := turned_step (f := f) (i := i) (n := n) (p.labels.marks n)
  generalize hstep : f.step (p.labels.marks n) i n = g at hturned hg ⊢
  cases hturned with
  | kept known => exact hs.keep hf rfl hstep known hg
  | folded unlabelled inside below => exact hs.fold hf unlabelled inside below hg

end Step

theorem settled_after {p : Program} {n : Nat} (hn : n ≤ p.size) : Settled p n (after p n) := by
  induction n with
  | zero => exact settled_start p
  | succ n ih =>
    have hi : p.instructions[n]? = some p.instructions[n] := Array.getElem?_eq_getElem hn
    have hle := Nat.le_of_succ_le hn
    rw [after_succ hi]
    exact (ih hle).step (faithful_after hle) hi

end Folding

theorem Program.fold_fold (p : Program) : p.fold.fold = p.fold := by
  have hs := Folding.settled_after (Nat.le_refl p.size)
  rw [← Folding.run_eq_after] at hs
  have hsize : p.fold.size = (Folding.run p).kept.size := size_ofSurvivors ..
  have hkept : (Folding.run p.fold).kept.toList = untouched p.fold.instructions.toList := by
    rw [Folding.run_eq_after, hsize]
    refine hs.kept_all.trans (congrArg untouched ?_)
    exact Array.toList_map.symm
  exact ofSurvivors_untouched hkept fun entry he => label_le_ofSurvivors (rising_foldKept p) _ he

namespace Pass

/-- Both passes are idempotent. Folding never fails and leaves its output as it is; where removal of
unreachable code succeeds, it succeeds on its output and leaves it as it is, to the last argument and
label. -/
theorem apply_idempotent (p : Program) :
    (∃ q, folding.apply p = .ok q ∧ folding.apply q = .ok q) ∧
      ∀ q, pruning.apply p = .ok q → pruning.apply q = .ok q :=
  ⟨⟨p.fold, rfl, congrArg Except.ok p.fold_fold⟩, fun _ => Program.prune_prune⟩

/-- A group behind a label, a label of a removed block, and one past the end. -/
theorem apply_idempotent_labels :
    let p : Program := ⟨#[⟨.push, ["1"]⟩, ⟨.push, ["2"]⟩, ⟨.binary .add, []⟩, ⟨.neg, []⟩, ⟨.jmp, ["end"]⟩,
      ⟨.print, []⟩, ⟨.ret, ["0"]⟩], .ofList [("main", 0), ("gone", 5), ("end", 6), ("past", 9)]⟩
    let folded : Program := ⟨#[⟨.push, ["-3"]⟩, ⟨.jmp, ["end"]⟩, ⟨.print, []⟩, ⟨.ret, ["0"]⟩],
      .ofList [("main", 0), ("gone", 2), ("end", 3), ("past", 4)]⟩
    let pruned : Program := ⟨#[⟨.push, ["-3"]⟩, ⟨.jmp, ["end"]⟩, ⟨.ret, ["0"]⟩],
      .ofList [("main", 0), ("gone", 2), ("end", 2), ("past", 3)]⟩
    folding.apply p = .ok folded ∧ folding.apply folded = .ok folded ∧
      pruning.apply folded = .ok pruned ∧ pruning.apply pruned = .ok pruned := by
  intro p folded pruned
  have hfolded : folding.apply p = .ok folded := by cbv
  have hpruned : pruning.apply folded = .ok pruned := by cbv
  obtain ⟨q, hq, hagain⟩ := (apply_idempotent p).1
  obtain rfl := Except.ok.inj (hq.symm.trans hfolded)
  exact ⟨hfolded, hagain, hpruned, (apply_idempotent folded).2 pruned hpruned⟩

end Pass

end CMinusMinus
