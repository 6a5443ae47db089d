import CMinusMinus.Optimizer.Reachable
import CMinusMinus.Proofs.Graph.Exploration
import CMinusMinus.Proofs.Machine.Relocation
import CMinusMinus.Proofs.Optimizer.Survivors
import Mathlib

/-!
# Runs of pruned programs

Control never leaves the instructions that the search marked: those are followed along every way that an
instruction can pass control, a return only goes behind a call that was executed, and the instruction
behind a marked call is marked too. So the pruned program runs in lockstep with the old one.
-/

namespace CMinusMinus

namespace Program

/-! ## What survives -/

section Marked

variable (p : Program) (marks : Array Bool)

theorem mem_marked {survivor : Survivor} : survivor ∈ p.marked marks ↔
    p.instructions[survivor.origin]? = some survivor.instruction ∧
      marks[survivor.origin]? = some true := by
  unfold marked
  rw [← Array.mem_toList_iff, Array.toList_filterMap, Array.toList_zipIdx, List.mem_filterMap]
  constructor
  · rintro ⟨⟨i, position⟩, hm, hs⟩
    dsimp only at hs
    split at hs
    · cases hs
      rw [List.mem_zipIdx_iff_getElem?] at hm
      exact ⟨by simpa using hm, ‹_›⟩
    · cases hs
  · rintro ⟨hi, hm⟩
    refine ⟨(survivor.instruction, survivor.origin), ?_, if_pos hm⟩
    rw [List.mem_zipIdx_iff_getElem?]
    simpa using hi

theorem rising_marked : Rising ((p.marked marks).map (·.origin)) := by
  have hp : ((p.marked marks).toList).Pairwise fun a b => a.origin < b.origin := by
    unfold marked
    rw [Array.toList_filterMap, Array.toList_zipIdx]
    have hz : (p.instructions.toList.zipIdx).Pairwise fun a b => a.2 < b.2 := by
      rw [← List.pairwise_map (f := Prod.snd) (R := (· < ·)), List.zipIdx_map_snd]
      exact List.pairwise_lt_range' 1
    refine hz.filterMap _ fun a b hab x hx y hy => ?_
    dsimp only at hx hy
    split at hx
    · cases hx
      split at hy
      · cases hy
        exact hab
      · cases hy
    · cases hx
  intro i j hi hj hij
  rw [Array.getElem_map, Array.getElem_map]
  exact List.pairwise_iff_getElem.1 hp i j (by simpa using hi) (by simpa using hj) hij

/-- A marked instruction survives, and stands where it is moved to. -/
theorem exists_marked {k : Nat} {i : Instruction} (hi : p.instructions[k]? = some i)
    (hm : marks[k]? = some true) :
    ∃ (j : Nat) (hj : j < (p.marked marks).size), (p.marked marks)[j] = ⟨i, k⟩ := by
  have hs : (⟨i, k⟩ : Survivor) ∈ p.marked marks := (p.mem_marked marks).2 ⟨hi, hm⟩
  exact Array.getElem_of_mem hs

theorem origin_lt_size {j : Nat} (hj : j < (p.marked marks).size) :
    (p.marked marks)[j].origin < p.size :=
  (Array.getElem?_eq_some_iff.1 ((p.mem_marked marks).1 (Array.getElem_mem hj)).1).1

end Marked

/-! ## Where control goes -/

/-- The positions of marked instructions, and those where there are none. -/
def Kept (p : Program) (marks : Array Bool) (k : Nat) : Prop :=
  p.size ≤ k ∨ marks[k]? = some true

section Reachable

variable {p : Program} {marks : Array Bool}

theorem explored_of_reachable (h : p.reachable = .ok marks) :
    ∃ entry, p.entry? = some entry ∧
      Graph.Explored p.successors (Array.replicate p.size false) [entry] marks := by
  unfold reachable at h
  cases he : p.entry? with
  | none => simp [he] at h
  | some entry =>
    rw [he] at h
    exact ⟨entry, rfl, Graph.explored_of_search h⟩

theorem successors_eq {k : Nat} {i : Instruction} (hi : p.instructions[k]? = some i) :
    p.successors k =
      match i.opcode with
      | .ret => .ok []
      | .jmp => (p.target i k).map ([·])
      | .jz | .call => (p.target i k).map ([k + 1, ·])
      | _ => .ok [k + 1] := by
  obtain ⟨opcode, args⟩ := i
  cases opcode <;> simp only [successors, hi]

theorem target_eq {i : Instruction} {k : Nat} {label : String} {target : Nat}
    (ha : i.args = [label]) (ht : p.labels.get? label = some target) :
    p.target i k = .ok target := by
  simp only [Program.target, ha, List.headD_cons, ht]

/-- A position past the end moves past the end. -/
theorem movedTo_past_marked (p : Program) (marks : Array Bool) {k : Nat} (hk : p.size ≤ k) :
    movedTo (p.marked marks) k = (p.marked marks).size :=
  movedTo_past (p.rising_marked marks) fun _ hj => Nat.lt_of_lt_of_le (p.origin_lt_size marks hj) hk

theorem Kept.marked {k : Nat} {i : Instruction} (hk : p.Kept marks k)
    (hi : p.instructions[k]? = some i) : marks[k]? = some true := by
  rcases hk with hk | hk
  · exact absurd (Array.getElem?_eq_some_iff.1 hi).1 (Nat.not_lt_of_le hk)
  · exact hk

theorem fetch_prune {k : Nat} (hk : p.Kept marks k) :
    (ofSurvivors (p.marked marks) p.labels).instructions[movedTo (p.marked marks) k]? =
      p.instructions[k]? := by
  rw [getElem?_ofSurvivors]
  cases hi : p.instructions[k]? with
  | none =>
    have hk : p.size ≤ k := Array.getElem?_eq_none_iff.1 hi
    rw [movedTo_past_marked p marks hk, Array.getElem?_eq_none (Nat.le_refl _)]
    rfl
  | some i =>
    obtain ⟨j, hj, hjk⟩ := p.exists_marked marks hi (hk.marked hi)
    have horigin := movedTo_origin (p.rising_marked marks) hj
    rw [hjk] at horigin
    rw [horigin, Array.getElem?_eq_getElem hj, hjk]
    rfl

theorem movedTo_marked_succ {k : Nat} (hk : p.Kept marks k) (hl : k < p.size) :
    movedTo (p.marked marks) (k + 1) = movedTo (p.marked marks) k + 1 := by
  have hi := Array.getElem?_eq_getElem hl
  obtain ⟨j, hj, hjk⟩ := p.exists_marked marks hi (hk.marked hi)
  have horigin := movedTo_origin (p.rising_marked marks) hj
  have hnext := movedTo_origin_succ (p.rising_marked marks) hj
  rw [hjk] at horigin hnext
  rw [horigin, hnext]

section Explored

variable {entries : List Nat}
  (hs : Graph.Explored p.successors (Array.replicate p.size false) entries marks)
include hs

theorem kept_entry {k : Nat} (hk : k ∈ entries) : p.Kept marks k := by
  by_cases hl : k < p.size
  · exact .inr (hs.visits k hk (by simpa using hl))
  · exact .inl (Nat.le_of_not_lt hl)

/-- The search found where control can be after a marked instruction, and marked it. -/
theorem Kept.exists_successors {k : Nat} {i : Instruction} (hk : p.Kept marks k)
    (hi : p.instructions[k]? = some i) :
    ∃ targets, p.successors k = .ok targets ∧ ∀ t ∈ targets, p.Kept marks t := by
  obtain ⟨targets, hn, hall⟩ := hs.follows k (hk.marked hi) (by simp [Array.getElem?_replicate])
  refine ⟨targets, hn, fun t ht => ?_⟩
  by_cases hl : t < p.size
  · exact .inr (hall t ht (by simpa using hl))
  · exact .inl (Nat.le_of_not_lt hl)

theorem Kept.falls {k : Nat} {i : Instruction} (hk : p.Kept marks k)
    (hi : p.instructions[k]? = some i) (hj : i.opcode ≠ .jmp) (hr : i.opcode ≠ .ret) :
    p.Kept marks (k + 1) := by
  obtain ⟨targets, hn, hall⟩ := hk.exists_successors hs hi
  refine hall _ ?_
  rw [p.successors_eq hi] at hn
  obtain ⟨opcode, args⟩ := i
  cases opcode with
  | jmp => exact absurd rfl hj
  | ret => exact absurd rfl hr
  | jz | call =>
    cases ht : p.target ⟨_, args⟩ k with
    | error e =>
      rw [ht] at hn
      cases hn
    | ok target =>
      rw [ht] at hn
      cases hn
      simp
  | _ =>
    cases hn
    simp

theorem Kept.jumps {k : Nat} {i : Instruction} {label : String} {target : Nat}
    (hk : p.Kept marks k) (hi : p.instructions[k]? = some i) (ha : i.args = [label])
    (ho : i.opcode = .jz ∨ i.opcode = .jmp ∨ i.opcode = .call)
    (ht : p.labels.get? label = some target) : p.Kept marks target := by
  obtain ⟨targets, hn, hall⟩ := hk.exists_successors hs hi
  refine hall _ ?_
  rw [p.successors_eq hi] at hn
  obtain ⟨opcode, args⟩ := i
  rcases ho with rfl | rfl | rfl <;> rw [p.target_eq ha ht] at hn <;> cases hn <;> simp

end Explored

/-- The pruned program has every instruction that control can reach at its new place. -/
theorem relocates_prune (h : p.reachable = .ok marks) :
    Relocates p (ofSurvivors (p.marked marks) p.labels) (movedTo (p.marked marks))
      (p.Kept marks) := by
  obtain ⟨entry, he, hs⟩ := explored_of_reachable h
  refine
    { labels := get?_ofSurvivors _ _
      fetch := fun k hk => fetch_prune hk
      next := fun k hk hl => movedTo_marked_succ hk hl
      size := ?_
      falls := fun k i hk hi hj hr => hk.falls hs hi hj hr
      jumps := fun k i label target hk hi ha ho ht => hk.jumps hs hi ha ho ht
      entry := fun k hk => ?_
      stop := .inl (Nat.le_refl _) }
  · rw [movedTo_past_marked p marks (Nat.le_refl _), size_ofSurvivors]
  · rw [he] at hk
    cases hk
    exact kept_entry hs (List.mem_singleton_self _)

end Reachable

/-- Removing unreachable instructions renumbers every run. At each round the new program executes the
instruction that the old one does, at the number of survivors below its old position; positions and return
addresses are moved, and everything else, also what an observer is told and what is left behind, is the
same. -/
theorem run_prune {σ : Type} {p q : Program} (hq : p.prune = .ok q) (meter : Meter) (turns : Nat)
    (observe : σ → Event → σ) (start : σ) :
    ∃ marks, p.reachable = .ok marks ∧
      let f := fun position => (p.marked marks).toList.countP (·.origin < position)
      let run := p.run meter turns (fun seen event => observe seen (event.move f)) start
      q.run meter turns observe start = run.move f ∧
      (q.run meter turns observe start).outcome? =
        run.outcome?.map (Except.mapError (Fault.move f)) := by
  unfold prune at hq
  cases hm : p.reachable with
  | error e =>
    rw [hm] at hq
    cases hq
  | ok marks =>
    rw [hm] at hq
    cases hq
    obtain ⟨entry, he, -⟩ := explored_of_reachable hm
    have hf : (fun position => (p.marked marks).toList.countP (·.origin < position)) =
        movedTo (p.marked marks) :=
      funext fun position => (movedTo_eq_countP (p.rising_marked marks) position).symm
    have hrun := (relocates_prune hm).run_move he meter turns observe start
    refine ⟨marks, rfl, ?_⟩
    dsimp only
    rw [hf]
    refine ⟨hrun, ?_⟩
    rw [hrun, Run.outcome?_move]

/-- A program of two instructions, of which control reaches the second one only. -/
theorem run_prune_unreachable :
    let p : Program := ⟨#[⟨.print, []⟩, ⟨.ret, ["0"]⟩], .ofList [("main", 1)]⟩
    let q : Program := ⟨#[⟨.ret, ["0"]⟩], .ofList [("main", 0)]⟩
    p.prune = .ok q ∧ ∃ marks, p.reachable = .ok marks ∧
      let f := fun position => (p.marked marks).toList.countP (·.origin < position)
      let run := p.run .plain 3 (fun seen event => seen ++ [event.move f]) []
      q.run .plain 3 (fun seen event => seen ++ [event]) [] = run.move f ∧
      (q.run .plain 3 (fun seen event => seen ++ [event]) []).outcome? =
        run.outcome?.map (Except.mapError (Fault.move f)) := by
  have hq : Program.prune ⟨#[⟨.print, []⟩, ⟨.ret, ["0"]⟩], .ofList [("main", 1)]⟩ =
      .ok ⟨#[⟨.ret, ["0"]⟩], .ofList [("main", 0)]⟩ := by
    cbv
  exact ⟨hq, run_prune hq .plain 3 (fun seen event => seen ++ [event]) []⟩

end Program

end CMinusMinus
