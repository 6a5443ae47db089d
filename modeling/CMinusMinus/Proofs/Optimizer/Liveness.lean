import CMinusMinus.Proofs.Graph.Reachability
import CMinusMinus.Proofs.Optimizer.Pruning

/-!
# Live instructions

An instruction is live if control can come to it from the entry along the ways that an instruction passes
control. The search for unreachable code marks the live instructions, and it succeeds if there is an entry
and every live instruction has the labels that it names.
-/

namespace CMinusMinus

namespace Opcode

/-- Whether the next instruction can follow. -/
def falls : Opcode → Bool
  | jmp | ret => false
  | _ => true

/-- Whether control can go to the label that the instruction names. -/
def jumps : Opcode → Bool
  | jz | jmp | call => true
  | _ => false

/-- Whether the instruction only computes a value. -/
def computes : Opcode → Bool
  | push | neg | binary _ => true
  | _ => false

end Opcode

namespace Program

/-- Control can come to the instruction at a position from the entry. -/
def Live (p : Program) (k : Nat) : Prop :=
  ∃ entry, p.entry? = some entry ∧ Graph.Reaches p.successors p.size [entry] k

variable {p : Program} {marks : Array Bool}

theorem Live.lt_size {k : Nat} (h : p.Live k) : k < p.size := by
  obtain ⟨entry, -, hr⟩ := h
  exact hr.lt_size

theorem reachable_eq_search {entry : Nat} (he : p.entry? = some entry) :
    p.reachable = Graph.search p.successors (Array.replicate p.size false) [entry] := by
  rw [reachable, he]

theorem marked_iff_live (h : p.reachable = .ok marks) (k : Nat) : marks[k]? = some true ↔ p.Live k := by
  obtain ⟨entry, he, -⟩ := explored_of_reachable h
  rw [reachable_eq_search he] at h
  rw [Graph.mem_search_iff h]
  refine ⟨fun hr => ⟨entry, he, hr⟩, ?_⟩
  rintro ⟨entry', he', hr⟩
  cases he.symm.trans he'
  exact hr

theorem exists_reachable_iff : (∃ marks, p.reachable = .ok marks) ↔
    p.entry?.isSome = true ∧ ∀ k, p.Live k → ∃ targets, p.successors k = .ok targets := by
  cases he : p.entry? with
  | none => simp [reachable, he]
  | some entry =>
    rw [reachable_eq_search he, Graph.exists_search_iff]
    refine ⟨fun h => ⟨rfl, ?_⟩, fun h k hr => h.2 k ⟨entry, he, hr⟩⟩
    rintro k ⟨entry', he', hr⟩
    cases he.symm.trans he'
    exact h k hr

theorem marks_target {i : Instruction} {k target : Nat} (h : p.target i k = .ok target) :
    p.labels.marks target = true := by
  unfold Program.target at h
  dsimp only at h
  split at h
  · cases h
    exact Labels.marks_of_get? ‹_›
  · cases h

theorem mem_successors {k : Nat} {i : Instruction} (hi : p.instructions[k]? = some i)
    {targets : List Nat} (h : p.successors k = .ok targets) (t : Nat) :
    t ∈ targets ↔
      i.opcode.falls = true ∧ t = k + 1 ∨ i.opcode.jumps = true ∧ p.target i k = .ok t := by
  rw [successors_eq hi] at h
  obtain ⟨opcode, args⟩ := i
  cases opcode with
  | jmp | jz | call =>
    cases hf : p.target ⟨_, args⟩ k with
    | error e =>
      rw [hf] at h
      cases h
    | ok found =>
      rw [hf] at h
      cases h
      simp [Opcode.falls, Opcode.jumps, eq_comm]
  | _ =>
    cases h
    simp [Opcode.falls, Opcode.jumps]

theorem successors_computes {k : Nat} {i : Instruction} (hi : p.instructions[k]? = some i)
    (hc : i.opcode.computes = true) : p.successors k = .ok [k + 1] := by
  rw [successors_eq hi]
  obtain ⟨opcode, args⟩ := i
  cases opcode with
  | push | neg | binary => rfl
  | _ => cases hc

theorem Live.step {k t : Nat} {targets : List Nat} (h : p.Live k) (hn : p.successors k = .ok targets)
    (ht : t ∈ targets) (hl : t < p.size) : p.Live t := by
  obtain ⟨entry, he, hr⟩ := h
  exact ⟨entry, he, hr.step hn ht hl⟩

/-- Control comes to a live instruction at a label, or from the one before it. -/
theorem Live.cases {k : Nat} (h : p.Live k) :
    p.labels.marks k = true ∨ ∃ j, k = j + 1 ∧ p.Live j := by
  obtain ⟨entry, he, hr⟩ := h
  cases hr with
  | start hs =>
    rw [List.mem_singleton.1 hs]
    exact .inl (Labels.marks_of_get? he)
  | @step j _ targets hr hn ht =>
    have hi := Array.getElem?_eq_getElem (show j < p.instructions.size from hr.lt_size)
    rcases (mem_successors hi hn k).1 ht with ⟨-, rfl⟩ | ⟨-, hf⟩
    · exact .inr ⟨j, rfl, entry, he, hr⟩
    · exact .inl (marks_target hf)

end Program

end CMinusMinus
