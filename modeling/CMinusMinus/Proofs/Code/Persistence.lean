import CMinusMinus.Proofs.Code.Reading
import CMinusMinus.Proofs.Code.Spelling
import CMinusMinus.Proofs.Optimizer.Folding
import CMinusMinus.Proofs.Optimizer.Pruning
import CMinusMinus.Toolchain

/-!
# Programs that are kept as text

Every program that the toolchain makes is read back from its text: one that was read from any text, one
that was compiled from a source text, and what passes make of such programs.
-/

namespace CMinusMinus

open Text

namespace Program

/-! ## Programs of survivors -/

theorem Writable.ofSurvivors {p : Program} (h : p.Writable) {survivors : Array Survivor}
    (hr : Rising (survivors.map (·.origin))) (hs : ∀ s ∈ survivors, s.instruction.Writable) :
    (Program.ofSurvivors survivors p.labels).Writable := by
  have hentries : (Program.ofSurvivors survivors p.labels).labels.entries =
      p.labels.entries.map fun entry => (entry.1, movedTo survivors entry.2) := rfl
  refine ⟨?_, ?_, ?_, ?_⟩
  · intro i hi
    obtain ⟨s, hs', rfl⟩ := Array.mem_map.1 hi
    exact hs s hs'
  · rw [hentries, List.forall_mem_map]
    exact h.labels
  · rw [hentries, List.pairwise_map]
    exact h.sorted.imp fun hle => movedTo_mono hr hle
  · rw [hentries, List.forall_mem_map, size_ofSurvivors]
    exact fun entry _ => movedTo_le_size hr entry.2

end Program

/-! ## Programs that were optimized -/

theorem Program.Writable.accepts {p : Program} (h : p.Writable) :
    ∀ i ∈ p.instructions, i.opcode.accepts i.args.length = true :=
  fun i hi => Instruction.accepts_of_validate (h.instructions i hi).valid

namespace Folding

/-- All instructions that are kept so far can be written. -/
def Writable (f : Folding) : Prop :=
  ∀ s ∈ f.kept, s.instruction.Writable

/-- A folded operation is a numeral that is pushed; everything else was there before. -/
theorem writable_run {p : Program} (h : p.Writable) : (run p).Writable := by
  intro s hs
  obtain ⟨i, hi, hleaves⟩ := mem_kept_run hs
  generalize s.instruction = j at hleaves
  cases hleaves with
  | same => exact h.instructions i (Array.mem_of_getElem? hi)
  | constant ho value => exact writable_pushNumeral value

end Folding

theorem Program.Writable.fold {p : Program} (h : p.Writable) : p.fold.Writable :=
  h.ofSurvivors (Grouped.rising (Folding.grouped_run h.accepts)) (Folding.writable_run h)

theorem Program.Writable.marked {p : Program} (h : p.Writable) (marks : Array Bool) :
    (Program.ofSurvivors (p.marked marks) p.labels).Writable := by
  refine h.ofSurvivors (Program.rising_marked p marks) fun s hs => ?_
  exact h.instructions _ (Array.mem_of_getElem? ((Program.mem_marked p marks).1 hs).1)

theorem Program.Writable.apply {p q : Program} (h : p.Writable) (hentry : p.entry?.isSome = true)
    {pass : Pass} (hq : pass.apply p = .ok q) : q.Writable ∧ q.entry?.isSome = true := by
  cases pass with
  | folding =>
    cases hq
    exact ⟨h.fold, (Program.isSome_entry?_ofSurvivors _ p).trans hentry⟩
  | pruning =>
    obtain ⟨marks, -, rfl⟩ := map_eq_ok hq
    exact ⟨h.marked marks, (Program.isSome_entry?_ofSurvivors _ p).trans hentry⟩

theorem Program.Writable.applyAll {p q : Program} (h : p.Writable) (hentry : p.entry?.isSome = true)
    {passes : List Pass} (hq : Pass.applyAll passes p = .ok q) : q.Writable ∧ q.entry?.isSome = true := by
  induction passes generalizing p with
  | nil =>
    cases hq
    exact ⟨h, hentry⟩
  | cons pass passes ih =>
    obtain ⟨p', hp, hq⟩ := bind_eq_ok hq
    obtain ⟨h', hentry'⟩ := h.apply hentry hp
    exact ih h' hentry' hq

/-! ## Text and passes -/

namespace Program

/-- A program that was read from a text, or compiled from a source text that declares the entry. -/
def Made (p : Program) : Prop :=
  (∃ text, load text = .ok p) ∨
    ∃ source tree, parse source = .ok tree ∧ tree.compile = .ok p ∧
      ∃ f ∈ tree.functions, f.name = entryName

theorem Made.writable {p : Program} (h : p.Made) : p.Writable ∧ p.entry?.isSome = true := by
  rcases h with ⟨text, hload⟩ | ⟨source, tree, hparse, hcompile, hmain⟩
  · exact writable_of_load hload
  · exact writable_of_compile hparse hcompile hmain

theorem ofText_text {p : Program} (h : p.Writable) (hentry : p.entry?.isSome = true) :
    ofText p.text = .ok p := by
  rw [ofText, h.load_text hentry]
  rfl

theorem made_of_ofSource {source : String} {p : Program} (h : ofSource source = .ok p)
    (hmain : ∀ tree, parse source = .ok tree → ∃ f ∈ tree.functions, f.name = entryName) : p.Made := by
  obtain ⟨tree, hparse, hcompile⟩ := bind_eq_ok h
  have hparse := mapError_eq_ok hparse
  exact .inr ⟨source, tree, hparse, mapError_eq_ok hcompile, hmain tree hparse⟩

theorem Made.optimize_text {p₀ : Program} (h : p₀.Made) {passes : List Pass} {p : Program}
    (hp : p₀.optimize passes = .ok p) : load p.text = .ok p := by
  obtain ⟨hw, hentry⟩ := h.writable
  obtain ⟨hw, hentry⟩ := hw.applyAll hentry (mapError_eq_ok hp)
  exact hw.load_text hentry

theorem Made.optimize_comm {p₀ : Program} (h : p₀.Made) (passes : List Pass) :
    (p₀.optimize passes >>= fun p => ofText p.text) =
      (ofText p₀.text >>= fun p => p.optimize passes) := by
  obtain ⟨hw, hentry⟩ := h.writable
  rw [ofText_text hw hentry]
  change _ = p₀.optimize passes
  cases hp : p₀.optimize passes with
  | error e => rfl
  | ok p => exact congrArg (Except.mapError Failure.load) (h.optimize_text hp)

theorem buildSource_eq {source : String} (passes : List Pass)
    (hmain : ∀ tree, parse source = .ok tree → ∃ f ∈ tree.functions, f.name = entryName) :
    buildSource passes source = (ofSource source >>= fun p => p.optimize passes) := by
  unfold buildSource build
  cases hp : ofSource source with
  | error e => rfl
  | ok p =>
    obtain ⟨hw, hentry⟩ := (made_of_ofSource hp hmain).writable
    change (ofText p.text >>= fun q => q.optimize passes) = p.optimize passes
    rw [ofText_text hw hentry]
    rfl

/-- The text of a program loses nothing: whatever passes make of a program that was read or compiled is
read back as it is, a program may be written before or after its passes, and a source text is built
through the text of its program as without it. -/
theorem text_keeps_program {p₀ : Program} (h : p₀.Made) (passes : List Pass) :
    (∀ p, p₀.optimize passes = .ok p →
      load p.text = .ok p ∧ (load p.text).map Program.text = .ok p.text) ∧
    (p₀.optimize passes >>= fun p => ofText p.text) =
      (ofText p₀.text >>= fun p => p.optimize passes) ∧
    ∀ source, (∀ tree, parse source = .ok tree → ∃ f ∈ tree.functions, f.name = entryName) →
      buildSource passes source = (ofSource source >>= fun p => p.optimize passes) := by
  refine ⟨fun p hp => ?_, h.optimize_comm passes, fun source hmain => buildSource_eq passes hmain⟩
  have hload := h.optimize_text hp
  exact ⟨hload, by rw [hload]; rfl⟩

set_option maxRecDepth 4000 in
/-- A text with two labels on one instruction, one past the end and a sum to fold; and a source text with
the same sum. -/
theorem text_keeps_program_sum :
    let text := "main:\nstart:\n\tpush 1\n  push 2\n # sum\n  add\n  print\n  jmp end\nend :\n"
    let source := "main() { print 1 + 2; }"
    let main : Function := ⟨"main", [], [.print (.binary .add (.int 1) (.int 2))], ⟨1, 1⟩⟩
    let sum : Program := ⟨#[⟨.push, ["1"]⟩, ⟨.push, ["2"]⟩, ⟨.binary .add, []⟩, ⟨.print, []⟩, ⟨.jmp, ["end"]⟩],
      ⟨[("main", 0), ("start", 0), ("end", 5)], by decide⟩⟩
    let folded : Program := ⟨#[⟨.push, ["3"]⟩, ⟨.print, []⟩, ⟨.jmp, ["end"]⟩],
      ⟨[("main", 0), ("start", 0), ("end", 3)], by decide⟩⟩
    let passes : List Pass := [.folding, .pruning]
    load text = .ok sum ∧ parse source = .ok ⟨[main]⟩ ∧ sum.optimize passes = .ok folded ∧
      load folded.text = .ok folded ∧
      buildSource passes source = (ofSource source >>= fun p => p.optimize passes) := by
  intro text source main sum folded passes
  have hload : load text = .ok sum := by cbv
  have hparse : parse source = .ok ⟨[main]⟩ := by cbv
  have hfold : sum.optimize passes = .ok folded := by cbv
  obtain ⟨hkeeps, -, hsource⟩ := text_keeps_program (.inl ⟨text, hload⟩) passes
  refine ⟨hload, hparse, hfold, (hkeeps folded hfold).1, hsource source fun tree htree => ?_⟩
  rw [hparse] at htree
  cases htree
  exact ⟨main, by simp, rfl⟩

end Program

end CMinusMinus
