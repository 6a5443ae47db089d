import CMinusMinus.Proofs.Code.Persistence
import CMinusMinus.Proofs.Machine.Turns

/-!
# What the machine needs, the reader checks

The reader knows how many arguments an operation has and what they look like, the machine what it can
execute, and the optimizer makes up instructions of its own. An instruction that passes the reader's checks
never stops the machine for its form, and passes keep the checks, the entry and the bound of the labels.
-/

namespace CMinusMinus.Program

variable {passes : List Pass} {p : Program}

theorem writable_of_build {text : String} (h : build passes text = .ok p) :
    p.Writable ∧ p.entry?.isSome = true := by
  obtain ⟨q, hread, hp⟩ := bind_eq_ok h
  obtain ⟨hw, hentry⟩ := writable_of_load (mapError_eq_ok hread)
  exact hw.applyAll hentry (mapError_eq_ok hp)

theorem writable_of_buildSource {source : String} (h : buildSource passes source = .ok p) :
    p.Writable ∧ p.entry?.isSome = true := by
  obtain ⟨q, -, h⟩ := bind_eq_ok h
  exact writable_of_build h

/-- Where every instruction passes the checks and the entry is defined, no run fails for the form of an
instruction or for want of the entry. -/
theorem Writable.run_failed (h : p.Writable) (hentry : p.entry?.isSome = true) {σ : Type} {meter : Meter}
    {turns : Nat} {observe : σ → Event → σ} {start : σ} {fault : Fault}
    (hf : (p.run meter turns observe start).ending = some (.failed fault)) :
    fault.cause.kind ≠ .invalidInstruction ∧ fault.cause ≠ .unresolvedLabel entryName := by
  obtain ⟨i, hi, hadmits⟩ := Program.run_failed hentry hf
  refine ⟨fun hkind => hadmits.form hkind (h.instructions i hi).valid, fun hcause => ?_⟩
  unfold entry? at hentry
  rw [hadmits.label entryName hcause] at hentry
  cases hentry

/-- Whatever passes make of a program that was read, or compiled and read, its instructions pass the
reader's checks, its labels are within the program and the entry is among them; and no run of it under any
limits fails for the form of an instruction or for want of the entry. -/
theorem build_valid (hp : (∃ text, build passes text = .ok p) ∨ ∃ source, buildSource passes source = .ok p) :
    (∀ i ∈ p.instructions, i.validate = .ok ()) ∧
    (∀ entry ∈ p.labels.entries, entry.2 ≤ p.size) ∧
    p.entry?.isSome = true ∧
    ∀ (σ : Type) (meter : Meter) (turns : Nat) (observe : σ → Event → σ) (start : σ) (fault : Fault),
      (p.run meter turns observe start).ending = some (.failed fault) →
      fault.cause.kind ≠ .invalidInstruction ∧ fault.cause ≠ .unresolvedLabel entryName := by
  obtain ⟨hw, hentry⟩ : p.Writable ∧ p.entry?.isSome = true := by
    rcases hp with ⟨text, h⟩ | ⟨source, h⟩
    · exact writable_of_build h
    · exact writable_of_buildSource h
  exact ⟨fun i hi => (hw.instructions i hi).valid, hw.bounded, hentry,
    fun σ meter turns observe start fault hf => hw.run_failed hentry hf⟩

set_option maxRecDepth 4000 in
/-- A text with a sum to fold and code that cannot be reached, whose run fails at a variable without a
value. -/
theorem build_valid_unbound :
    let text := "main:\n  push 1\n  push 2\n  add\n  pop\n  push x\n  jmp end\n  print\nend:\n"
    let p : Program := ⟨#[⟨.push, ["3"]⟩, ⟨.pop, []⟩, ⟨.push, ["x"]⟩, ⟨.jmp, ["end"]⟩],
      ⟨[("main", 0), ("end", 4)], by decide⟩⟩
    let fault : Fault := ⟨.unboundName "x", some 2⟩
    build [.folding, .pruning] text = .ok p ∧
    (p.run .plain 3 (fun seen _ => seen) ()).ending = some (.failed fault) ∧
    fault.cause.kind ≠ .invalidInstruction ∧ fault.cause ≠ .unresolvedLabel entryName := by
  intro text p fault
  have hbuild : build [.folding, .pruning] text = .ok p := by cbv
  have hended : (p.run .plain 3 (fun seen _ => seen) ()).ending = some (.failed fault) := by cbv
  exact ⟨hbuild, hended, (build_valid (.inl ⟨text, hbuild⟩)).2.2.2 Unit _ _ _ _ fault hended⟩

end CMinusMinus.Program
