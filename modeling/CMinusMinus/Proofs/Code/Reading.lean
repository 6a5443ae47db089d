import CMinusMinus.Proofs.Code.Writing
import CMinusMinus.Proofs.Text.Spacing

/-!
# Programs that were read

Whatever text a program is read from, its lines can be written again: the reader keeps trimmed words, and
takes a line for a label or an instruction by its last character.
-/

namespace CMinusMinus

open Text

namespace Program

theorem isComment_cons_cons (c d : Char) (cs ds : List Char) :
    Line.isComment (c :: d :: cs) = Line.isComment (c :: d :: ds) := by
  unfold Line.isComment
  split <;> split <;> simp_all

/-- The name of a label does not start like a comment if its line does not. -/
theorem isComment_name {name after : List Char} (hne : name ≠ [])
    (h : Line.isComment (name ++ after ++ [':']) = false) : Line.isComment (name ++ [':']) = false := by
  match name with
  | [] => exact absurd rfl hne
  | [c] =>
    unfold Line.isComment at h ⊢
    split <;> simp_all
  | c :: d :: cs =>
    rw [← h]
    exact isComment_cons_cons ..

theorem Line.exists_of_ofLabel {cs : List Char} {line : Line} (h : ofLabel cs = .ok line) :
    ∃ name gap, cs = name ++ gap ∧ IsWord name ∧ Blanks gap ∧ line = .label (String.ofList name) := by
  simp only [ofLabel] at h
  split at h
  · cases h
  · rename_i hname
    cases h
    simp only [Bool.or_eq_true, not_or, Bool.not_eq_true, List.isEmpty_eq_false_iff, List.any_eq_false] at hname
    obtain ⟨gap, hcs, hgap⟩ := exists_trimEnd_append cs
    exact ⟨trimEnd cs, gap, hcs, ⟨hname.1, by simpa using hname.2⟩, hgap, rfl⟩

theorem writable_of_ofLabel {cs : List Char} {line : Line} (h : Line.ofLabel cs = .ok line)
    (hplain : Line.isComment (cs ++ [':']) = false) : line.Writable := by
  obtain ⟨name, gap, rfl, hname, -, rfl⟩ := Line.exists_of_ofLabel h
  refine ⟨by simpa using hname, ?_⟩
  rw [String.toList_ofList]
  exact isComment_name hname.ne_nil hplain

theorem ofWords_ok {words : List String} {i : Instruction} (h : Instruction.ofWords words = .ok i) :
    i.args = words.tail ∧ i.validate = .ok () := by
  unfold Instruction.ofWords at h
  dsimp only at h
  split at h
  · cases h
  · obtain ⟨_, hvalid, h⟩ := bind_eq_ok h
    cases h
    exact ⟨rfl, hvalid⟩

theorem writable_of_ofWords {init : List Char} {last : Char} {i : Instruction}
    (hlast : isBlank last = false) (hcolon : last ≠ ':')
    (h : Instruction.ofWords ((words (init ++ [last])).map String.ofList) = .ok i) : i.Writable := by
  obtain ⟨hargs, hvalid⟩ := ofWords_ok h
  obtain ⟨pre, w, hwords⟩ := words_concat hlast init
  refine ⟨hvalid, fun arg harg => ?_, fun arg harg => ?_⟩
  · rw [hargs] at harg
    obtain ⟨v, hv, rfl⟩ := List.mem_map.1 (List.mem_of_mem_tail harg)
    rw [String.toList_ofList]
    exact isWord_of_mem_words hv
  · -- The last argument is the last word, which ends as the line does.
    have hend : arg = String.ofList (w ++ [last]) := by
      rw [hargs, hwords, List.map_append, List.map_singleton] at harg
      cases pre with
      | nil => simp at harg
      | cons v pre => simpa using harg.symm
    rw [hend, String.toList_ofList]
    simpa using hcolon

theorem writable_of_read? {raw : List Char} {line : Line} (h : Line.read? raw = .ok (some line)) :
    line.Writable := by
  simp only [Line.read?] at h
  split at h
  · cases h
  · rename_i hplain
    have hne : trim raw ≠ [] := by
      intro hnil
      exact hplain (by simp [hnil, Line.isComment])
    -- The last character of the trimmed line tells a label from an instruction.
    obtain ⟨init, last, htrim, hlast⟩ := trim_eq_concat hne
    rw [htrim] at h hplain
    split at h
    · rename_i hcolon
      obtain rfl : last = ':' := by simpa using hcolon
      rw [List.dropLast_concat] at h
      obtain ⟨line', hl, h⟩ := map_eq_ok h
      cases h
      exact writable_of_ofLabel hl (by simpa using hplain)
    · rename_i hcolon
      obtain ⟨i, hi, h⟩ := map_eq_ok h
      cases h
      exact writable_of_ofWords hlast (by simpa using hcolon) hi

theorem Writable.readLine {p q : Program} (h : p.Writable) {raw : List Char}
    (hq : p.readLine raw = .ok q) : q.Writable := by
  obtain ⟨line?, hr, hadd⟩ := bind_eq_ok hq
  match line? with
  | none =>
    cases hadd
    exact h
  | some (.label name) =>
    simp only [add] at hadd
    split at hadd
    · cases hadd
    · cases hadd
      exact h.push (writable_of_read? hr)
  | some (.instruction i) =>
    cases hadd
    exact h.push (writable_of_read? hr)

theorem Writable.readLines {p q : Program} (h : p.Writable) {number : Nat} {raws : List (List Char)}
    (hq : p.readLines number raws = .ok q) : q.Writable := by
  induction raws generalizing p number with
  | nil =>
    cases hq
    exact h
  | cons raw raws ih =>
    rw [Program.readLines] at hq
    split at hq
    · rename_i p' hp'
      exact ih (h.readLine hp') hq
    · cases hq

theorem writable_of_load {text : String} {p : Program} (h : load text = .ok p) :
    p.Writable ∧ p.entry?.isSome = true := by
  obtain ⟨q, hr, h⟩ := bind_eq_ok h
  split at h
  · cases h
    exact ⟨writable_empty.readLines hr, ‹_›⟩
  · cases h

end Program

end CMinusMinus
