import CMinusMinus.Text.Blank
import Mathlib.Tactic.Common

/-!
# Words of a line

Words with a blank between them are read back as they are, and the last word of a line that does not end
in a blank ends as the line does.
-/

namespace CMinusMinus.Text

/-- One character or more, and no blank. -/
structure IsWord (cs : List Char) : Prop where
  ne_nil : cs ≠ []
  solid : ∀ c ∈ cs, isBlank c = false

/-! ## Trimming -/

theorem trimStart_cons {c : Char} (hc : isBlank c = false) (cs : List Char) :
    trimStart (c :: cs) = c :: cs := by
  rw [trimStart, List.dropWhile_cons_of_neg (by simp [hc])]

theorem trimEnd_concat {c : Char} (hc : isBlank c = false) (cs : List Char) :
    trimEnd (cs ++ [c]) = cs ++ [c] := by
  rw [trimEnd, List.reverse_append, List.reverse_singleton, List.singleton_append,
    List.dropWhile_cons_of_neg (by simp [hc]), List.reverse_cons, List.reverse_reverse]

theorem IsWord.trimEnd_append {cs : List Char} (h : IsWord cs) (before : List Char) :
    trimEnd (before ++ cs) = before ++ cs := by
  rw [← List.dropLast_concat_getLast h.ne_nil, ← List.append_assoc]
  exact trimEnd_concat (h.solid _ (List.getLast_mem h.ne_nil)) _

theorem IsWord.trimEnd_eq {cs : List Char} (h : IsWord cs) : trimEnd cs = cs :=
  h.trimEnd_append []

theorem IsWord.trimStart_append {cs : List Char} (h : IsWord cs) (after : List Char) :
    trimStart (cs ++ after) = cs ++ after := by
  cases cs with
  | nil => exact absurd rfl h.ne_nil
  | cons c cs => exact trimStart_cons (h.solid c (by simp)) _

theorem exists_trimEnd_append (cs : List Char) :
    ∃ after, cs = trimEnd cs ++ after ∧ ∀ c ∈ after, isBlank c = true := by
  refine ⟨(cs.reverse.takeWhile isBlank).reverse, ?_, fun c hc => ?_⟩
  · rw [trimEnd, ← List.reverse_append, List.takeWhile_append_dropWhile, List.reverse_reverse]
  · exact List.all_eq_true.1 List.all_takeWhile c (List.mem_reverse.1 hc)

/-- A trimmed text that is not empty ends in a character that is no blank. -/
theorem trim_eq_concat {cs : List Char} (h : trim cs ≠ []) :
    ∃ init last, trim cs = init ++ [last] ∧ isBlank last = false := by
  unfold trim trimEnd at h ⊢
  have hhead := List.head?_dropWhile_not isBlank (trimStart cs).reverse
  cases hdrop : (trimStart cs).reverse.dropWhile isBlank with
  | nil => simp [hdrop] at h
  | cons last rest =>
    rw [hdrop] at hhead
    exact ⟨rest.reverse, last, by simp, by simpa using hhead⟩

/-! ## Words -/

theorem words_spaced {w : List Char} (hw : IsWord w) {ws : List (List Char)} (hws : ∀ v ∈ ws, IsWord v) :
    words (w ++ ws.flatMap (' ' :: ·)) = w :: ws := by
  induction ws generalizing w with
  | nil =>
    rw [List.flatMap_nil, List.append_nil, words, List.splitOnP_eq_singleton hw.solid]
    simpa using hw.ne_nil
  | cons v ws ih =>
    obtain ⟨hv, hws⟩ := List.forall_mem_cons.1 hws
    have ih := ih hv hws
    unfold words at ih ⊢
    rw [List.flatMap_cons, List.cons_append, List.splitOnP_append_cons_of_forall_mem hw.solid ' ' (by decide),
      List.filter_cons_of_pos (by simpa using hw.ne_nil), ih]

/-- What a text is split at is in none of the pieces. -/
theorem not_of_mem_splitOnP {p : Char → Bool} {cs w : List Char} (hw : w ∈ cs.splitOnP p) :
    ∀ c ∈ w, p c = false := by
  induction cs generalizing w with
  | nil =>
    rw [List.splitOnP_nil, List.mem_singleton] at hw
    simp [hw]
  | cons c cs ih =>
    rw [List.splitOnP_cons_eq_if_modifyHead] at hw
    split at hw
    · rcases List.mem_cons.1 hw with rfl | hw
      · simp
      · exact ih hw
    · rename_i hc
      cases hs : cs.splitOnP p with
      | nil => exact absurd hs (by simp)
      | cons v vs =>
        rw [hs, List.modifyHead_cons] at hw
        rcases List.mem_cons.1 hw with rfl | hw
        · refine List.forall_mem_cons.2 ⟨by simpa using hc, ih ?_⟩
          simp [hs]
        · exact ih (by simp [hs, hw])

theorem isWord_of_mem_words {cs w : List Char} (hw : w ∈ words cs) : IsWord w := by
  obtain ⟨hmem, hne⟩ := List.mem_filter.1 hw
  exact ⟨by simpa using hne, not_of_mem_splitOnP hmem⟩

theorem splitOnP_concat {c : Char} (hc : isBlank c = false) (cs : List Char) :
    ∃ pre w, (cs ++ [c]).splitOnP isBlank = pre ++ [w ++ [c]] := by
  induction cs with
  | nil => exact ⟨[], [], List.splitOnP_eq_singleton (by simpa using hc)⟩
  | cons d cs ih =>
    obtain ⟨pre, w, hsplit⟩ := ih
    rw [List.cons_append, List.splitOnP_cons_eq_if_modifyHead, hsplit]
    split
    · exact ⟨[] :: pre, w, rfl⟩
    · cases pre with
      | nil => exact ⟨[], d :: w, rfl⟩
      | cons v pre => exact ⟨(d :: v) :: pre, w, rfl⟩

theorem words_concat {c : Char} (hc : isBlank c = false) (cs : List Char) :
    ∃ pre w, words (cs ++ [c]) = pre ++ [w ++ [c]] := by
  obtain ⟨pre, w, hsplit⟩ := splitOnP_concat hc cs
  exact ⟨pre.filter (!·.isEmpty), w, by simp [words, hsplit]⟩

/-! ## Lines -/

/-- Lines with a newline behind each are read back, with an empty line behind them. -/
theorem lines_flatMap {ls : List (List Char)} (h : ∀ l ∈ ls, ∀ c ∈ l, (c == '\n') = false) :
    lines (ls.flatMap (· ++ ['\n'])) = ls ++ [[]] := by
  induction ls with
  | nil => rfl
  | cons l ls ih =>
    obtain ⟨hl, hls⟩ := List.forall_mem_cons.1 h
    have ih := ih hls
    unfold lines at ih ⊢
    rw [List.flatMap_cons, List.append_assoc, List.singleton_append,
      List.splitOnP_append_cons_of_forall_mem hl '\n' rfl, ih]
    rfl

end CMinusMinus.Text
