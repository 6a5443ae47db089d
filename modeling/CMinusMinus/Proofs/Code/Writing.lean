import CMinusMinus.Code.Assembly
import CMinusMinus.Proofs.Code.Layout
import CMinusMinus.Proofs.Text.Blank
import Mathlib

/-!
# Programs are read back from their text

A line that can be written is one that the reader does not take for anything else: its label or its
arguments are words, a label does not start like a comment, and an instruction passes the reader's checks
and does not end in a colon. A program of such lines whose labels are in the order of their positions is
read back from its text as it is.
-/

namespace CMinusMinus

open Text

/-! ## Lines that can be written -/

/-- An instruction that the reader takes for itself. -/
structure Instruction.Writable (i : Instruction) : Prop where
  valid : i.validate = .ok ()
  solid : ∀ arg ∈ i.args, IsWord arg.toList
  plain : ∀ arg ∈ i.args.getLast?, arg.toList.getLast? ≠ some ':'

/-- The name of a label whose line the reader takes for a label. -/
structure WritableLabel (name : String) : Prop where
  word : IsWord name.toList
  plain : Program.Line.isComment (name.toList ++ [':']) = false

namespace Program

def Line.Writable : Line → Prop
  | label name => WritableLabel name
  | instruction i => i.Writable

/-- The characters of a line without the newline. -/
def Line.chars : Line → List Char
  | label name => name.toList ++ [':']
  | instruction i => "    ".toList ++ i.text.toList

end Program

/-! ## One line -/

theorem Instruction.text_toList (i : Instruction) :
    i.text.toList = i.opcode.name.toList ++ (i.args.map String.toList).flatMap (' ' :: ·) := by
  unfold Instruction.text
  generalize i.opcode.name = text
  induction i.args generalizing text with
  | nil => simp
  | cons arg args ih => simp [ih, String.toList_append]

namespace Opcode

theorem isWord_name (opcode : Opcode) : IsWord opcode.name.toList := by
  have hsolid : opcode.name.toList ≠ [] ∧ opcode.name.toList.all (!isBlank ·) = true := by
    cases opcode with
    | binary op => cases op <;> exact ⟨by decide, by decide⟩
    | _ => exact ⟨by decide, by decide⟩
  exact ⟨hsolid.1, fun c hc => by simpa using List.all_eq_true.1 hsolid.2 c hc⟩

theorem ofName?_name (opcode : Opcode) : ofName? opcode.name = some opcode := by
  cases opcode with
  | binary op => cases op <;> cbv
  | _ => cbv

theorem plain_name (opcode : Opcode) (cs : List Char) :
    Program.Line.isComment (opcode.name.toList ++ cs) = false ∧ opcode.name.toList.getLast? ≠ some ':' := by
  cases opcode with
  | binary op => cases op <;> exact ⟨rfl, by decide⟩
  | _ => exact ⟨rfl, by decide⟩

end Opcode

namespace Instruction.Writable

variable {i : Instruction} (h : i.Writable)
include h

/-- The text of an instruction ends in a word, and not in a colon. -/
theorem exists_last : ∃ before last, i.text.toList = before ++ last ∧ IsWord last ∧
    last.getLast? ≠ some ':' := by
  rw [Instruction.text_toList]
  rcases List.eq_nil_or_concat i.args with hargs | ⟨init, last, hargs⟩
  · exact ⟨[], i.opcode.name.toList, by simp [hargs], i.opcode.isWord_name, (i.opcode.plain_name []).2⟩
  · have hwords := h.solid
    have hplain := h.plain
    rw [hargs] at hwords hplain
    exact ⟨i.opcode.name.toList ++ (init.map String.toList).flatMap (' ' :: ·) ++ [' '], last.toList,
      by simp [hargs], hwords last (by simp), hplain last (by simp)⟩

theorem trim_chars : trim (Program.Line.instruction i).chars = i.text.toList := by
  obtain ⟨before, last, htext, hlast, -⟩ := h.exists_last
  have hstart : trimStart (Program.Line.instruction i).chars = i.text.toList := by
    have hname := i.opcode.isWord_name.trimStart_append ((i.args.map String.toList).flatMap (' ' :: ·))
    rw [← Instruction.text_toList] at hname
    exact hname
  rw [trim, hstart, htext, hlast.trimEnd_append]

theorem words_text : (words i.text.toList).map String.ofList = i.opcode.name :: i.args := by
  rw [Instruction.text_toList, words_spaced i.opcode.isWord_name]
  · simp [Function.comp_def]
  · intro w hw
    obtain ⟨arg, harg, rfl⟩ := List.mem_map.1 hw
    exact h.solid arg harg

theorem ofWords_eq : Instruction.ofWords (i.opcode.name :: i.args) = .ok i := by
  unfold Instruction.ofWords
  simp only [List.headD_cons, Opcode.ofName?_name, List.tail_cons]
  rw [show (⟨i.opcode, i.args⟩ : Instruction) = i from rfl, h.valid]
  rfl

end Instruction.Writable

namespace Program

theorem Line.read?_chars {line : Line} (h : line.Writable) : Line.read? line.chars = .ok (some line) := by
  cases line with
  | label name =>
    obtain ⟨hword, hplain⟩ := h
    have hstart : trimStart (Line.label name).chars = name.toList ++ [':'] := hword.trimStart_append [':']
    have htrim : trim (Line.label name).chars = name.toList ++ [':'] := by
      rw [trim, hstart, trimEnd_concat (by decide)]
    have hblank : name.toList.any isBlank = false := by simpa using hword.solid
    unfold Line.read? Line.ofLabel
    simp [htrim, hplain, hword.trimEnd_eq, hword.ne_nil, hblank, Except.map]
  | instruction i =>
    obtain ⟨before, last, htext, hlast, hcolon⟩ := Instruction.Writable.exists_last h
    have hplain := (i.opcode.plain_name ((i.args.map String.toList).flatMap (' ' :: ·))).1
    rw [← Instruction.text_toList] at hplain
    have hgetLast : i.text.toList.getLast? ≠ some ':' := by
      rw [htext, List.getLast?_append]
      cases hl : last.getLast? with
      | none => exact absurd (List.getLast?_eq_none_iff.1 hl) hlast.ne_nil
      | some c => simpa [hl] using hcolon
    unfold Line.read?
    simp only [Instruction.Writable.trim_chars h, hplain]
    rw [if_neg (by decide), if_neg hgetLast, Instruction.Writable.words_text h,
      Instruction.Writable.ofWords_eq h]
    rfl

/-! ## Lines and their programs -/

/-- The labels among lines, each with its position where the first line stands at `k`. -/
def placed (k : Nat) : List Line → List (String × Nat)
  | [] => []
  | .label name :: lines => (name, k) :: placed k lines
  | .instruction _ :: lines => placed (k + 1) lines

theorem map_fst_placed (k : Nat) (lines : List Line) : (placed k lines).map Prod.fst = labelNames lines := by
  induction lines generalizing k with
  | nil => rfl
  | cons line lines ih => cases line <;> simp [placed, labelNames, ih]

def Line.instruction? : Line → Option Instruction
  | label _ => none
  | instruction i => some i

theorem instructions_foldl_push (p : Program) (lines : List Line) :
    (lines.foldl push p).instructions.toList =
      p.instructions.toList ++ lines.filterMap Line.instruction? := by
  induction lines generalizing p with
  | nil => simp
  | cons line lines ih =>
    rw [List.foldl_cons, ih]
    cases line <;> simp [push, Line.instruction?, List.filterMap_cons]

section New

variable {p : Program} {line : Line} {lines : List Line}

theorem get?_none_of_nodup {name : String}
    (h : (p.labels.entries.map Prod.fst ++ labelNames (.label name :: lines)).Nodup) :
    p.labels.get? name = none := by
  rw [Labels.get?_eq_none_iff]
  intro hmem
  exact (List.nodup_append.1 h).2.2 name hmem name (List.mem_cons_self ..) rfl

theorem entries_push_label {name : String} (h : p.labels.get? name = none) :
    (p.push (.label name)).labels.entries = p.labels.entries ++ [(name, p.size)] := by
  simp [push, Labels.define, h]

/-- Labels that are not defined and differ from each other are so after one line more. -/
theorem nodup_push (h : (p.labels.entries.map Prod.fst ++ labelNames (line :: lines)).Nodup) :
    ((p.push line).labels.entries.map Prod.fst ++ labelNames lines).Nodup := by
  cases line with
  | label name =>
    rw [entries_push_label (get?_none_of_nodup h)]
    simpa [labelNames] using h
  | instruction i => exact h

/-- Labels that are new are placed after the others. -/
theorem entries_foldl_push
    (hnodup : (p.labels.entries.map Prod.fst ++ labelNames lines).Nodup) :
    (lines.foldl push p).labels.entries = p.labels.entries ++ placed p.size lines := by
  induction lines generalizing p with
  | nil => simp [placed]
  | cons line lines ih =>
    rw [List.foldl_cons, ih (nodup_push hnodup)]
    cases line with
    | label name =>
      rw [entries_push_label (get?_none_of_nodup hnodup)]
      simp [placed, push, size]
    | instruction i => simp [placed, push, size]

end New

/-! ## Lines of a program -/

/-- A program that is read back from its text: its lines can be written, and its labels stand in the order
of their positions, none of them past the end. -/
structure Writable (p : Program) : Prop where
  instructions : ∀ i ∈ p.instructions, i.Writable
  labels : ∀ entry ∈ p.labels.entries, WritableLabel entry.1
  sorted : p.labels.entries.Pairwise (·.2 ≤ ·.2)
  bounded : ∀ entry ∈ p.labels.entries, entry.2 ≤ p.size

/-- In a list in the order of its positions, what stands at `k` comes before what stands behind it. -/
theorem filter_sorted {entries : List (String × Nat)} (h : entries.Pairwise (·.2 ≤ ·.2)) (k : Nat) :
    entries.filter (·.2 == k) ++ entries.filter (k + 1 ≤ ·.2) = entries.filter (k ≤ ·.2) := by
  induction entries with
  | nil => rfl
  | cons entry entries ih =>
    obtain ⟨hentry, h⟩ := List.pairwise_cons.1 h
    have ih := ih h
    rcases Nat.lt_trichotomy entry.2 k with hlt | rfl | hgt
    · rw [List.filter_cons_of_neg (by simp; omega), List.filter_cons_of_neg (by simp; omega),
        List.filter_cons_of_neg (by simp; omega)]
      exact ih
    · rw [List.filter_cons_of_pos (by simp), List.filter_cons_of_neg (by simp),
        List.filter_cons_of_pos (by simp), List.cons_append, ih]
    · -- Everything stands behind `k`, since the first entry does.
      have hnone : (entry :: entries).filter (·.2 == k) = [] := by
        rw [List.filter_eq_nil_iff]
        intro other hother
        rcases List.mem_cons.1 hother with rfl | hother
        · simp; omega
        · have := hentry other hother
          simp; omega
      have hrest : entries.filter (·.2 == k) = [] := by
        rw [List.filter_cons_of_neg (by simp; omega)] at hnone
        exact hnone
      rw [hrest, List.nil_append] at ih
      rw [hnone, List.nil_append, List.filter_cons_of_pos (by simp; omega),
        List.filter_cons_of_pos (by simp; omega), ih]

theorem placed_labelLines (p : Program) (k : Nat) (lines : List Line) :
    placed k (p.labelLines k ++ lines) = p.labels.entries.filter (·.2 == k) ++ placed k lines := by
  unfold labelLines
  have hat : ∀ entry ∈ p.labels.entries.filter (·.2 == k), entry.2 = k := by simp
  generalize p.labels.entries.filter (·.2 == k) = found at hat ⊢
  induction found with
  | nil => rfl
  | cons entry found ih =>
    obtain ⟨hentry, hfound⟩ := List.forall_mem_cons.1 hat
    rw [List.map_cons, List.cons_append, placed, ih hfound, ← hentry, List.cons_append]

/-- The labels in the lines of a program, from position `k` on. -/
theorem placed_lines {p : Program} (h : p.labels.entries.Pairwise (·.2 ≤ ·.2)) (k : Nat)
    (is : List Instruction) (hbound : ∀ entry ∈ p.labels.entries, entry.2 ≤ k + is.length) :
    placed k ((is.zipIdx k).flatMap (fun (i, position) => p.labelLines position ++ [.instruction i]) ++
      p.labelLines (k + is.length)) = p.labels.entries.filter (k ≤ ·.2) := by
  induction is generalizing k with
  | nil =>
    have hlast := placed_labelLines p k []
    rw [List.append_nil] at hlast
    rw [List.zipIdx_nil, List.flatMap_nil, List.nil_append, List.length_nil, Nat.add_zero, hlast, placed,
      List.append_nil]
    refine List.filter_congr fun entry hentry => ?_
    have hle := hbound entry hentry
    rw [List.length_nil, Nat.add_zero] at hle
    rw [Bool.eq_iff_iff, beq_iff_eq, decide_eq_true_iff]
    omega
  | cons i is ih =>
    have hlength : k + (i :: is).length = k + 1 + is.length := by rw [List.length_cons]; omega
    rw [hlength] at hbound ⊢
    simp only [List.zipIdx_cons, List.flatMap_cons, List.append_assoc, List.singleton_append]
    rw [placed_labelLines]
    exact (congrArg (_ ++ ·) (ih (k + 1) hbound)).trans (filter_sorted h k)

theorem instructions_lines (p : Program) :
    p.lines.filterMap Line.instruction? = p.instructions.toList := by
  have hlabels : ∀ position, (p.labelLines position).filterMap Line.instruction? = [] := by
    intro position
    unfold labelLines
    rw [List.filterMap_map]
    simp [Function.comp_def, Line.instruction?]
  unfold lines
  rw [List.filterMap_append, hlabels, List.append_nil, List.filterMap_flatMap]
  simp only [List.filterMap_append, hlabels, List.nil_append]
  have hmap := List.map_eq_flatMap (f := Prod.fst) (l := p.instructions.toList.zipIdx)
  exact hmap.symm.trans (List.zipIdx_map_fst 0 _)

theorem eq_of_fields {p q : Program} (hi : p.instructions = q.instructions)
    (hl : p.labels.entries = q.labels.entries) : p = q := by
  obtain ⟨is, entries, hp⟩ := p
  obtain ⟨is', entries', hq⟩ := q
  cases hi
  cases hl
  rfl

namespace Writable

variable {p : Program} (h : p.Writable)
include h

theorem placed_eq : placed 0 p.lines = p.labels.entries := by
  have hplaced := placed_lines h.sorted 0 p.instructions.toList (by simpa [size] using h.bounded)
  rw [Array.length_toList, Nat.zero_add] at hplaced
  refine hplaced.trans ?_
  simp

theorem lines : ∀ line ∈ p.lines, line.Writable := by
  have hlabels : ∀ position, ∀ line ∈ p.labelLines position, line.Writable := by
    intro position line hline
    obtain ⟨entry, hentry, rfl⟩ := List.mem_map.1 hline
    exact h.labels entry (List.mem_filter.1 hentry).1
  intro line hline
  rcases List.mem_append.1 hline with hline | hline
  · obtain ⟨⟨i, position⟩, hi, hline⟩ := List.mem_flatMap.1 hline
    rcases List.mem_append.1 hline with hline | hline
    · exact hlabels position line hline
    · rw [List.mem_singleton.1 hline]
      exact h.instructions i (by simpa using List.fst_mem_of_mem_zipIdx hi)
  · exact hlabels p.size line hline

theorem nodup_labelNames : (labelNames p.lines).Nodup := by
  rw [← map_fst_placed 0, h.placed_eq]
  exact p.labels.nodup

/-- The lines of a program write it. -/
theorem ofLines_lines : ofLines p.lines = p := by
  have hinstructions := instructions_foldl_push empty p.lines
  have hentries := entries_foldl_push (show (empty.labels.entries.map Prod.fst ++ labelNames p.lines).Nodup
    from h.nodup_labelNames)
  rw [instructions_lines] at hinstructions
  have hplaced : empty.labels.entries ++ placed empty.size p.lines = p.labels.entries := h.placed_eq
  rw [hplaced] at hentries
  exact eq_of_fields (Array.toList_inj.1 hinstructions) hentries

end Writable

/-! ## Programs line by line -/

theorem writable_empty : empty.Writable :=
  ⟨by simp [empty], by simp [empty, Labels.empty], .nil, by simp [empty, Labels.empty]⟩

theorem Writable.push {p : Program} (h : p.Writable) {line : Line} (hline : line.Writable) :
    (p.push line).Writable := by
  cases line with
  | label name =>
    by_cases hnew : p.labels.get? name = none
    · have hentries := entries_push_label hnew
      refine ⟨h.instructions, ?_, ?_, ?_⟩
      · rw [hentries]
        exact List.forall_mem_append.2 ⟨h.labels, List.forall_mem_singleton.2 hline⟩
      · rw [hentries, List.pairwise_append]
        exact ⟨h.sorted, by simp, by simpa using h.bounded⟩
      · rw [hentries]
        exact List.forall_mem_append.2 ⟨h.bounded, by simp [Program.push, size]⟩
    · have hsame : p.push (.label name) = p := by simp [Program.push, Labels.define, hnew]
      rwa [hsame]
  | instruction i =>
    refine ⟨?_, h.labels, h.sorted, fun entry hentry => ?_⟩
    · intro j hj
      rcases Array.mem_push.1 hj with hj | rfl
      · exact h.instructions j hj
      · exact hline
    · have := h.bounded entry hentry
      simp only [size] at this
      simp only [Program.push, size, Array.size_push]
      omega

theorem Writable.foldl_push {p : Program} (h : p.Writable) {lines : List Line}
    (hlines : ∀ line ∈ lines, line.Writable) : (lines.foldl Program.push p).Writable := by
  induction lines generalizing p with
  | nil => exact h
  | cons line lines ih =>
    obtain ⟨hline, hlines⟩ := List.forall_mem_cons.1 hlines
    exact ih (h.push hline) hlines

/-! ## Reading a text -/

theorem Line.text_toList (line : Line) : line.text.toList = line.chars ++ ['\n'] := by
  cases line <;> simp [Line.text, Line.chars, String.toList_append]

theorem toList_foldl_text (lines : List Line) (text : String) :
    (lines.foldl (fun text line => text ++ line.text) text).toList =
      text.toList ++ lines.flatMap fun line => line.chars ++ ['\n'] := by
  induction lines generalizing text with
  | nil => simp
  | cons line lines ih => simp [ih, String.toList_append, Line.text_toList]

theorem Line.Writable.isNewline_chars {line : Line} (h : line.Writable) :
    ∀ c ∈ line.chars, (c == '\n') = false := by
  have hword : ∀ {cs : List Char}, IsWord cs → ∀ c ∈ cs, (c == '\n') = false := by
    intro cs hcs c hc
    rw [beq_eq_false_iff_ne]
    rintro rfl
    exact absurd (hcs.solid _ hc) (by decide)
  intro c hc
  cases line with
  | label name =>
    rcases List.mem_append.1 hc with hc | hc
    · exact hword h.word c hc
    · rw [List.mem_singleton.1 hc]
      rfl
  | instruction i =>
    rcases List.mem_append.1 hc with hc | hc
    · have hspaces : ∀ c ∈ "    ".toList, (c == '\n') = false := by simp
      exact hspaces c hc
    · rw [Instruction.text_toList] at hc
      rcases List.mem_append.1 hc with hc | hc
      · exact hword i.opcode.isWord_name c hc
      · obtain ⟨w, hw, hc⟩ := List.mem_flatMap.1 hc
        obtain ⟨arg, harg, rfl⟩ := List.mem_map.1 hw
        rcases List.mem_cons.1 hc with rfl | hc
        · rfl
        · exact hword (Instruction.Writable.solid h arg harg) c hc

theorem readLines_chars {lines : List Line} (h : ∀ line ∈ lines, line.Writable) {p : Program}
    (hnodup : (p.labels.entries.map Prod.fst ++ labelNames lines).Nodup) (number : Nat) :
    p.readLines number (lines.map Line.chars ++ [[]]) = .ok (lines.foldl push p) := by
  induction lines generalizing p number with
  | nil => rfl
  | cons line lines ih =>
    obtain ⟨hline, hlines⟩ := List.forall_mem_cons.1 h
    have hadd : p.readLine line.chars = .ok (p.push line) := by
      unfold readLine
      rw [Line.read?_chars hline]
      cases line with
      | label name =>
        have hnew : p.labels.get? name = none := get?_none_of_nodup hnodup
        have hcontains : p.labels.contains name = false := by simp [Labels.contains, hnew]
        simp [add, hcontains, Bind.bind, Except.bind]
      | instruction i => rfl
    rw [List.map_cons, List.cons_append, readLines, hadd]
    exact ih hlines (nodup_push hnodup) (number + 1)

/-- The text of a program whose entry is defined is read back. -/
theorem Writable.load_text {p : Program} (h : p.Writable) (hentry : p.entry?.isSome = true) :
    load p.text = .ok p := by
  have hlines := h.lines
  have htext : p.text.toList = (p.lines.map Line.chars).flatMap (· ++ ['\n']) := by
    rw [text, toList_foldl_text, List.flatMap_map]
    rfl
  have hread : empty.readLines 1 (Text.lines p.text.toList) = .ok p := by
    have hnodup : (empty.labels.entries.map Prod.fst ++ labelNames p.lines).Nodup := h.nodup_labelNames
    have hchars : ∀ cs ∈ p.lines.map Line.chars, ∀ c ∈ cs, (c == '\n') = false := by
      rw [List.forall_mem_map]
      exact fun line hline => Line.Writable.isNewline_chars (hlines line hline)
    rw [htext, lines_flatMap hchars, readLines_chars hlines hnodup]
    exact congrArg Except.ok h.ofLines_lines
  unfold load
  rw [hread]
  exact if_pos hentry

end Program

end CMinusMinus
