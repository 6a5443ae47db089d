import CMinusMinus.Proofs.Optimizer.Liveness

/-!
# What pruning keeps

The graph of control has an edge from an instruction to the next one, except from a jump and a return, and
one to the label that a jump, a conditional jump or a call names. Pruning fails exactly if there is no entry,
or if the graph leads from the entry to an instruction whose label is not defined, and it reports such a
one. Else it keeps exactly the instructions to which the graph leads.

The search looks at the edges of an instruction all at once, so an instruction with an undefined label ends
it; the graph may lead on from there to the next instruction. A path beyond what the search can see
therefore has such an instruction on it.
-/

namespace CMinusMinus.Program

variable {p : Program}

/-! ## The graph of control -/

/-- Control can pass from the instruction at a position to a position. -/
inductive Passes (p : Program) (k : Nat) : Nat → Prop where
  | next {i : Instruction} (hi : p.instructions[k]? = some i) (hf : i.opcode.falls = true) :
      Passes p k (k + 1)
  | target {i : Instruction} {t : Nat} (hi : p.instructions[k]? = some i)
      (hj : i.opcode.jumps = true) (ht : p.labels.get? (i.args.headD "") = some t) : Passes p k t

/-- The graph leads from the entry to a position, which may be past the last instruction. -/
def Reachable (p : Program) (k : Nat) : Prop :=
  ∃ entry, p.entry? = some entry ∧ Relation.ReflTransGen p.Passes entry k

/-- The instruction at a position can go to a label, and the label is not defined. -/
def Astray (p : Program) (label : String) (k : Nat) : Prop :=
  ∃ i, p.instructions[k]? = some i ∧ i.opcode.jumps = true ∧ i.args.headD "" = label ∧
    p.labels.get? label = none

theorem target_eq_ok {i : Instruction} {k t : Nat} :
    p.target i k = .ok t ↔ p.labels.get? (i.args.headD "") = some t := by
  simp only [target]
  cases p.labels.get? (i.args.headD "") <;> simp

theorem target_eq_error {i : Instruction} {k : Nat} {e : OptimizeError} :
    p.target i k = .error e ↔
      e = .unresolvedLabel (i.args.headD "") k ∧ p.labels.get? (i.args.headD "") = none := by
  simp only [target]
  cases p.labels.get? (i.args.headD "") <;> simp [eq_comm]

theorem successors_eq_error {k : Nat} {e : OptimizeError} :
    p.successors k = .error e ↔ ∃ label, e = .unresolvedLabel label k ∧ p.Astray label k := by
  cases hi : p.instructions[k]? with
  | none => simp [successors, Astray, hi]
  | some i =>
    have hastray : (∃ label, e = .unresolvedLabel label k ∧ p.Astray label k) ↔
        i.opcode.jumps = true ∧ p.target i k = .error e := by
      simp only [Astray, hi, Option.some.injEq, exists_eq_left', target_eq_error]
      grind
    rw [hastray, successors_eq hi]
    obtain ⟨opcode, args⟩ := i
    cases opcode with
    | jmp | jz | call =>
      dsimp only
      cases p.target ⟨_, args⟩ k <;> simp [Except.map, Opcode.jumps]
    | _ => simp [Opcode.jumps]

/-- The successors of an instruction are where the graph leads in one step. -/
theorem mem_successors_iff {k t : Nat} {targets : List Nat} (h : p.successors k = .ok targets) :
    t ∈ targets ↔ p.Passes k t := by
  cases hi : p.instructions[k]? with
  | none =>
    obtain rfl : targets = [] := by simpa [successors, hi, eq_comm] using h
    refine iff_of_false List.not_mem_nil fun hp => ?_
    cases hp <;> simp_all
  | some i =>
    rw [mem_successors hi h, target_eq_ok]
    constructor
    · rintro (⟨hf, rfl⟩ | ⟨hj, ht⟩)
      · exact .next hi hf
      · exact .target hi hj ht
    · rintro (⟨hi', hf⟩ | ⟨hi', hj, ht⟩) <;> cases hi.symm.trans hi'
      · exact .inl ⟨hf, rfl⟩
      · exact .inr ⟨hj, ht⟩

/-! ## The graph and the search -/

theorem Live.reachable {k : Nat} (h : p.Live k) : p.Reachable k := by
  obtain ⟨entry, he, hr⟩ := h
  refine ⟨entry, he, ?_⟩
  induction hr with
  | start hs =>
    rw [List.mem_singleton.1 hs]
  | step _ hn ht _ ih => exact ih.tail ((mem_successors_iff hn).1 ht)

/-- Where the graph leads and the search does not see an instruction, there is none, or the way goes through
an undefined label that the search comes to. -/
theorem Reachable.live {k : Nat} (h : p.Reachable k) :
    p.Live k ∨ p.size ≤ k ∨ ∃ label j, p.Live j ∧ p.Astray label j := by
  obtain ⟨entry, he, hr⟩ := h
  induction hr with
  | refl =>
    rcases Nat.lt_or_ge entry p.size with hl | hl
    · exact .inl ⟨entry, he, .start (List.mem_singleton_self _) hl⟩
    · exact .inr (.inl hl)
  | @tail j t _ hp ih =>
    rcases ih with hlive | hpast | hastray
    · cases hn : p.successors j with
      | error e =>
        obtain ⟨label, -, ha⟩ := successors_eq_error.1 hn
        exact .inr (.inr ⟨label, j, hlive, ha⟩)
      | ok targets =>
        rcases Nat.lt_or_ge t p.size with hl | hl
        · exact .inl (hlive.step hn ((mem_successors_iff hn).2 hp) hl)
        · exact .inr (.inl hl)
    · have hnone : p.instructions[j]? = none := Array.getElem?_eq_none hpast
      cases hp <;> simp_all
    · exact .inr (.inr hastray)

theorem reachable_eq_error {e : OptimizeError} (h : p.reachable = .error e) :
    (e = .missingEntry ∧ p.entry? = none) ∨
      ∃ label k, e = .unresolvedLabel label k ∧ p.Reachable k ∧ p.Astray label k := by
  cases he : p.entry? with
  | none => exact .inl ⟨by simpa [reachable, he, eq_comm] using h, rfl⟩
  | some entry =>
    rw [reachable_eq_search he] at h
    obtain ⟨k, hr, hn⟩ := Graph.reaches_of_search_start.2 e h
    obtain ⟨label, rfl, ha⟩ := successors_eq_error.1 hn
    exact .inr ⟨label, k, rfl, Live.reachable ⟨entry, he, hr⟩, ha⟩

/-- A search that succeeds has seen all instructions to which the graph leads, and their labels. -/
theorem reachable_eq_ok {marks : Array Bool} (h : p.reachable = .ok marks) :
    p.entry?.isSome = true ∧ (∀ label k, p.Reachable k → ¬p.Astray label k) ∧
      ∀ k, marks[k]? = some true ↔ k < p.size ∧ p.Reachable k := by
  obtain ⟨hentry, hknown⟩ := exists_reachable_iff.1 ⟨marks, h⟩
  have hnone : ∀ label k, p.Live k → ¬p.Astray label k := by
    intro label k hlive ha
    obtain ⟨targets, hn⟩ := hknown k hlive
    cases (successors_eq_error.2 ⟨label, rfl, ha⟩).symm.trans hn
  have hlive : ∀ k, p.Live k ↔ k < p.size ∧ p.Reachable k := by
    refine fun k => ⟨fun hlive => ⟨hlive.lt_size, hlive.reachable⟩, fun ⟨hl, hr⟩ => ?_⟩
    rcases hr.live with hlive | hpast | ⟨label, j, hj, ha⟩
    · exact hlive
    · omega
    · exact absurd ha (hnone label j hj)
  refine ⟨hentry, fun label k hr ha => ?_, fun k => (marked_iff_live h k).trans (hlive k)⟩
  obtain ⟨i, hi, -⟩ := id ha
  have hl : k < p.size := (Array.getElem?_eq_some_iff.1 hi).1
  exact hnone label k ((hlive k).2 ⟨hl, hr⟩) ha

/-! ## The pass -/

section Marked

variable (p) (marks : Array Bool)

/-- The positions of the instructions with a mark. -/
def markedPositions : List Nat :=
  (p.marked marks).toList.map (·.origin)

theorem mem_markedPositions {k : Nat} :
    k ∈ p.markedPositions marks ↔ k < p.size ∧ marks[k]? = some true := by
  simp only [markedPositions, List.mem_map, Array.mem_toList_iff, mem_marked]
  constructor
  · rintro ⟨survivor, ⟨hi, hm⟩, rfl⟩
    exact ⟨(Array.getElem?_eq_some_iff.1 hi).1, hm⟩
  · rintro ⟨hl, hm⟩
    exact ⟨⟨_, k⟩, ⟨Array.getElem?_eq_getElem (show k < p.instructions.size from hl), hm⟩, rfl⟩

theorem pairwise_markedPositions : (p.markedPositions marks).Pairwise (· < ·) := by
  rw [markedPositions, ← Array.toList_map]
  exact (p.rising_marked marks).pairwise

theorem map_markedPositions : (p.markedPositions marks).map (p.instructions[·]?) =
    (p.marked marks).toList.map fun survivor => some survivor.instruction := by
  rw [markedPositions, List.map_map]
  refine List.map_congr_left fun survivor hs => ?_
  exact ((p.mem_marked marks).1 (Array.mem_toList_iff.1 hs)).1

end Marked

/-- Pruning is exact. It fails if and only if there is no entry or the graph of control leads from the entry
to an instruction whose label is not defined, and what it reports is true. Else what is left are the
instructions to which the graph leads, in their order, and the labels are those of before, in the same
order, each at the number of instructions left in front of it. -/
theorem prune_exact (p : Program) :
    ((∃ e, p.prune = .error e) ↔
      p.entry? = none ∨ ∃ label k, p.Reachable k ∧ p.Astray label k) ∧
    (∀ e, p.prune = .error e →
      (e = .missingEntry ∧ p.entry? = none) ∨
        ∃ label k, e = .unresolvedLabel label k ∧ p.Reachable k ∧ p.Astray label k) ∧
    ∀ q, p.prune = .ok q → ∃ positions : List Nat,
      positions.Pairwise (· < ·) ∧
      (∀ k, k ∈ positions ↔ k < p.size ∧ p.Reachable k) ∧
      q.instructions.toList.map some = positions.map (p.instructions[·]?) ∧
      q.labels.entries = p.labels.entries.map fun entry =>
        (entry.1, positions.countP (· < entry.2)) := by
  unfold prune
  cases h : p.reachable with
  | error e =>
    have hreport := reachable_eq_error h
    refine ⟨iff_of_true ⟨e, rfl⟩ ?_, fun e' he => Except.error.inj he ▸ hreport, fun q hq => by cases hq⟩
    rcases hreport with ⟨-, he⟩ | ⟨label, k, -, hr, ha⟩
    · exact .inl he
    · exact .inr ⟨label, k, hr, ha⟩
  | ok marks =>
    obtain ⟨hentry, hdefined, hmarks⟩ := reachable_eq_ok h
    refine ⟨iff_of_false (fun ⟨e, he⟩ => by cases he) ?_, fun e he => (by cases he), fun q hq => ?_⟩
    · rintro (hnone | ⟨label, k, hr, ha⟩)
      · simp [hnone] at hentry
      · exact hdefined label k hr ha
    · obtain rfl := Except.ok.inj hq
      refine ⟨p.markedPositions marks, p.pairwise_markedPositions marks, fun k => ?_, ?_, ?_⟩
      · rw [mem_markedPositions, hmarks]
        tauto
      · simp [map_markedPositions, ofSurvivors]
      · refine List.map_congr_left fun entry _ => ?_
        rw [markedPositions, List.countP_map]
        exact congrArg _ (movedTo_eq_countP (p.rising_marked marks) entry.2)

/-- Control jumps over the call, so its label need not be defined. -/
example : prune ⟨#[⟨.jmp, ["end"]⟩, ⟨.call, ["nowhere"]⟩, ⟨.ret, ["0"]⟩],
      .ofList [("main", 0), ("end", 2)]⟩ =
    .ok ⟨#[⟨.jmp, ["end"]⟩, ⟨.ret, ["0"]⟩], .ofList [("main", 0), ("end", 1)]⟩ := by
  cbv

end CMinusMinus.Program
