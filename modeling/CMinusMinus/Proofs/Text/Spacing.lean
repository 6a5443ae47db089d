import CMinusMinus.Proofs.Text.Blank
import Mathlib.Data.List.Basic
import Mathlib.Data.List.Forall2
import Mathlib.Tactic.Common

/-!
# Blanks between words

Blanks separate words and are nothing else: a text is words with gaps between them and a margin at either end,
and other gaps and margins leave the words as they are. A newline ends a line, and a carriage return in front
of it is a blank at the end of the line.
-/

namespace CMinusMinus.Text

variable {c : Char} {cs gap w : List Char} {ws : List (List Char)}

/-- Nothing but blanks. -/
def Blanks (cs : List Char) : Prop :=
  ∀ c ∈ cs, isBlank c = true

theorem blanks_nil : Blanks [] :=
  nofun

theorem blanks_cons : Blanks (c :: cs) ↔ isBlank c = true ∧ Blanks cs :=
  List.forall_mem_cons

/-! ## Words -/

theorem words_append_cons (hc : isBlank c = true) (before after : List Char) :
    words (before ++ c :: after) = words before ++ words after := by
  rw [words, List.splitOnP_append_cons _ _ hc, List.filter_append]
  rfl

theorem words_blanks_append (h : Blanks gap) (after : List Char) : words (gap ++ after) = words after := by
  induction gap with
  | nil => rfl
  | cons c gap ih =>
    obtain ⟨hc, hgap⟩ := blanks_cons.1 h
    exact (words_append_cons hc [] _).trans (ih hgap)

theorem words_append_blanks (h : Blanks gap) (before : List Char) : words (before ++ gap) = words before := by
  cases gap with
  | nil => rw [List.append_nil]
  | cons c gap =>
    obtain ⟨hc, hgap⟩ := blanks_cons.1 h
    have hnone : words gap = [] := by
      have := words_blanks_append hgap []
      rwa [List.append_nil] at this
    rw [words_append_cons hc, hnone, List.append_nil]

theorem words_gap (h : Blanks gap) (hne : gap ≠ []) (before after : List Char) :
    words (before ++ gap ++ after) = words before ++ words after := by
  cases gap with
  | nil => exact absurd rfl hne
  | cons c gap =>
    obtain ⟨hc, hgap⟩ := blanks_cons.1 h
    rw [List.append_assoc, List.cons_append, words_append_cons hc, words_blanks_append hgap]

theorem words_margins {before after : List Char} (hbefore : Blanks before) (hafter : Blanks after)
    (cs : List Char) : words (before ++ cs ++ after) = words cs := by
  rw [words_append_blanks hafter, words_blanks_append hbefore]

theorem IsWord.words_eq (hw : IsWord w) : words w = [w] := by
  simpa using @words_spaced w hw [] nofun

/-- A word that ends a text or has a blank behind it. -/
theorem IsWord.words_append (hw : IsWord w) {after : List Char} (hafter : ∀ c ∈ after.head?, isBlank c = true) :
    words (w ++ after) = w :: words after := by
  cases after with
  | nil => rw [List.append_nil, hw.words_eq]; rfl
  | cons c after =>
    have hc := hafter c rfl
    rw [words_append_cons hc, hw.words_eq, ← List.nil_append (c :: after), words_append_cons hc]
    rfl

/-! ## Trimming -/

theorem trimStart_blanks_append (h : Blanks gap) (after : List Char) :
    trimStart (gap ++ after) = trimStart after :=
  List.dropWhile_append_of_pos h

theorem trimEnd_append_blanks (h : Blanks gap) (before : List Char) :
    trimEnd (before ++ gap) = trimEnd before := by
  unfold trimEnd
  rw [List.reverse_append, List.dropWhile_append_of_pos fun c hc => h c (List.mem_reverse.1 hc)]

theorem trimEnd_append_of_ne_nil (before : List Char) {after : List Char} (h : trimEnd after ≠ []) :
    trimEnd (before ++ after) = before ++ trimEnd after := by
  unfold trimEnd at h ⊢
  rw [List.reverse_append, List.dropWhile_append, if_neg (by simpa using h), List.reverse_append,
    List.reverse_reverse]

/-- A text that starts with a word does so without the blanks at its end. -/
theorem IsWord.exists_trimEnd (hw : IsWord w) (after : List Char) : ∃ rest, trimEnd (w ++ after) = w ++ rest := by
  obtain ⟨gap, hafter, hgap⟩ := exists_trimEnd_append after
  by_cases hnil : trimEnd after = []
  · rw [hafter, hnil, List.nil_append, trimEnd_append_blanks hgap, hw.trimEnd_eq]
    exact ⟨[], (List.append_nil w).symm⟩
  · exact ⟨trimEnd after, trimEnd_append_of_ne_nil w hnil⟩

/-! ## Words with gaps between them -/

/-- A text is words with gaps between them, and has no margins. -/
inductive Spaced : List (List Char) → List Char → Prop where
  | one {w : List Char} (hw : IsWord w) : Spaced [w] w
  | cons {w gap cs : List Char} {ws : List (List Char)} (hw : IsWord w) (hne : gap ≠ [])
    (hgap : Blanks gap) (h : Spaced ws cs) : Spaced (w :: ws) (w ++ gap ++ cs)

namespace Spaced

theorem words_eq (h : Spaced ws cs) : words cs = ws := by
  induction h with
  | one hw => exact hw.words_eq
  | cons hw hne hgap h ih => rw [words_gap hgap hne, hw.words_eq, ih, List.singleton_append]

/-- A spaced text starts with its first word, which ends it or has a blank behind it. -/
theorem exists_first (h : Spaced ws cs) : ∃ w rest after, ws = w :: rest ∧ cs = w ++ after ∧ IsWord w ∧
    ∀ c ∈ after.head?, isBlank c = true := by
  cases h with
  | one hw => exact ⟨_, [], [], rfl, (List.append_nil _).symm, hw, nofun⟩
  | @cons w gap cs ws hw hne hgap h =>
    refine ⟨w, ws, gap ++ cs, rfl, List.append_assoc .., hw, fun c hc => ?_⟩
    cases gap with
    | nil => exact absurd rfl hne
    | cons d gap =>
      obtain rfl : d = c := by simpa using hc
      exact (blanks_cons.1 hgap).1

theorem exists_last (h : Spaced ws cs) : ∃ init w before, ws = init ++ [w] ∧ cs = before ++ w ∧ IsWord w := by
  induction h with
  | one hw => exact ⟨[], _, [], rfl, rfl, hw⟩
  | @cons w gap cs ws hw hne hgap h ih =>
    obtain ⟨init, last, before, rfl, rfl, hlast⟩ := ih
    exact ⟨w :: init, last, w ++ gap ++ before, rfl, by simp, hlast⟩

/-- A spaced text ends as its last word does. -/
theorem getLast?_eq (h : Spaced ws cs) : cs.getLast? = (ws.getLastD []).getLast? := by
  obtain ⟨init, w, before, rfl, rfl, hw⟩ := h.exists_last
  rw [List.getLast?_append_of_ne_nil _ hw.ne_nil]
  simp

theorem eq_of_single (h : Spaced [w] cs) : cs = w := by
  cases h with
  | one => rfl
  | cons _ _ _ h => cases h

theorem eq_of_pair {v : List Char} (h : Spaced [v, w] cs) : ∃ gap, Blanks gap ∧ cs = v ++ gap ++ w := by
  cases h with
  | cons hw hne hgap h => exact ⟨_, hgap, by rw [h.eq_of_single]⟩

/-- Margins are trimmed away. -/
theorem trim_eq (h : Spaced ws cs) {before after : List Char} (hbefore : Blanks before)
    (hafter : Blanks after) : trim (before ++ cs ++ after) = cs := by
  obtain ⟨first, -, rest, -, hfirst, hword, -⟩ := h.exists_first
  obtain ⟨-, last, init, -, hlast, hword'⟩ := h.exists_last
  rw [trim, List.append_assoc, trimStart_blanks_append hbefore, hfirst, List.append_assoc,
    hword.trimStart_append, ← List.append_assoc, ← hfirst, trimEnd_append_blanks hafter, hlast,
    hword'.trimEnd_append]

/-- A character in front of a spaced text lengthens the first word. -/
theorem lengthen (h : Spaced ws cs) (hc : isBlank c = false) : ∃ ws, Spaced ws (c :: cs) := by
  have hcons : ∀ {w}, IsWord w → IsWord (c :: w) := fun hw =>
    ⟨List.cons_ne_nil _ _, List.forall_mem_cons.2 ⟨hc, hw.solid⟩⟩
  cases h with
  | one hw => exact ⟨_, .one (hcons hw)⟩
  | cons hw hne hgap h => exact ⟨_, .cons (hcons hw) hne hgap h⟩

end Spaced

/-- Every text is blank, or words with gaps between them and margins. -/
theorem exists_spaced (cs : List Char) : Blanks cs ∨ ∃ before ts after ws,
    cs = before ++ ts ++ after ∧ Blanks before ∧ Blanks after ∧ Spaced ws ts := by
  induction cs with
  | nil => exact .inl blanks_nil
  | cons c cs ih =>
    cases hc : isBlank c with
    | true =>
      rcases ih with hblank | ⟨before, ts, after, ws, rfl, hbefore, hafter, h⟩
      · exact .inl (blanks_cons.2 ⟨hc, hblank⟩)
      · exact .inr ⟨c :: before, ts, after, ws, rfl, blanks_cons.2 ⟨hc, hbefore⟩, hafter, h⟩
    | false =>
      have hword : IsWord [c] := ⟨List.cons_ne_nil _ _, by simpa using hc⟩
      refine .inr ?_
      rcases ih with hblank | ⟨before, ts, after, ws, rfl, hbefore, hafter, h⟩
      · exact ⟨[], [c], cs, [[c]], rfl, blanks_nil, hblank, .one hword⟩
      · by_cases hnil : before = []
        · obtain ⟨ws, h⟩ := h.lengthen hc
          exact ⟨[], c :: ts, after, ws, by rw [hnil]; rfl, blanks_nil, hafter, h⟩
        · exact ⟨[], [c] ++ before ++ ts, after, _, by simp, blanks_nil, hafter, .cons hword hnil hbefore h⟩

/-- A trimmed text is spaced by its words, unless it is empty. -/
theorem spaced_trim (cs : List Char) : trim cs = [] ∧ words cs = [] ∨ Spaced (words cs) (trim cs) := by
  rcases exists_spaced cs with hblank | ⟨before, ts, after, ws, rfl, hbefore, hafter, h⟩
  · left
    have hwords := words_blanks_append hblank []
    have htrim := trimStart_blanks_append hblank []
    rw [List.append_nil] at hwords htrim
    exact ⟨by rw [trim, htrim]; rfl, hwords⟩
  · right
    rwa [h.trim_eq hbefore hafter, words_margins hbefore hafter, h.words_eq]

/-! ## Lines -/

theorem lines_cons (c : Char) (cs : List Char) :
    lines (c :: cs) = if c = '\n' then [] :: lines cs else (lines cs).modifyHead (c :: ·) := by
  unfold lines
  rw [List.splitOnP_cons_eq_if_modifyHead]
  simp only [beq_iff_eq]

theorem exists_lines (cs : List Char) : ∃ l more, lines cs = l :: more := by
  cases h : lines cs with
  | nil => exact absurd h (List.splitOnP_ne_nil _ _)
  | cons l more => exact ⟨l, more, rfl⟩

/-- A text of two lines or more is the first one, a newline and the other ones. -/
theorem exists_of_lines {cs l : List Char} {more : List (List Char)} (h : lines cs = l :: more)
    (hne : more ≠ []) : ∃ rest, cs = l ++ '\n' :: rest ∧ lines rest = more := by
  induction cs generalizing l with
  | nil =>
    cases h
    exact absurd rfl hne
  | cons c cs ih =>
    rw [lines_cons] at h
    split at h
    · cases h
      exact ⟨cs, by simp [*], rfl⟩
    · obtain ⟨l', more', hcs⟩ := exists_lines cs
      rw [hcs, List.modifyHead_cons] at h
      cases h
      obtain ⟨rest, rfl, hrest⟩ := ih hcs
      exact ⟨rest, rfl, hrest⟩

/-- A text is its first lines with a newline behind each, and the text of the other lines. -/
theorem exists_of_take_lines {k : Nat} {cs : List Char} (hk : k < (lines cs).length) :
    ∃ rest, cs = ((lines cs).take k).flatMap (· ++ ['\n']) ++ rest ∧ lines rest = (lines cs).drop k := by
  induction k generalizing cs with
  | zero => exact ⟨cs, rfl, rfl⟩
  | succ k ih =>
    obtain ⟨l, more, hcs⟩ := exists_lines cs
    rw [hcs] at hk ⊢
    have hne : more ≠ [] := by
      rintro rfl
      simp at hk
    obtain ⟨rest, rfl, rfl⟩ := exists_of_lines hcs hne
    obtain ⟨rest', hrest, hlines⟩ := @ih rest (by simpa using hk)
    refine ⟨rest', ?_, hlines⟩
    rw [List.take_succ_cons, List.flatMap_cons, List.append_assoc, ← hrest, List.append_assoc]
    rfl

/-- The text with a carriage return in front of every newline. -/
def withReturns (cs : List Char) : List Char :=
  cs.flatMap fun c => if c = '\n' then ['\r', '\n'] else [c]

/-- Carriage returns in front of newlines stand at the ends of lines. -/
theorem lines_withReturns (cs : List Char) :
    List.Forall₂ (fun l l' => l' = l ∨ l' = l ++ ['\r']) (lines cs) (lines (withReturns cs)) := by
  induction cs with
  | nil => exact .cons (.inl rfl) .nil
  | cons c cs ih =>
    rw [withReturns, List.flatMap_cons, ← withReturns, lines_cons]
    split
    · rw [List.cons_append, lines_cons, if_neg (by decide), List.cons_append, lines_cons, if_pos rfl]
      exact .cons (.inr rfl) ih
    · rename_i hc
      rw [List.singleton_append, lines_cons, if_neg hc]
      obtain ⟨l, more, hcs⟩ := exists_lines cs
      obtain ⟨l', more', hcs'⟩ := exists_lines (withReturns cs)
      rw [hcs, hcs'] at ih ⊢
      obtain ⟨hl, hmore⟩ := List.forall₂_cons.1 ih
      exact .cons (hl.imp (congrArg (c :: ·)) (congrArg (c :: ·))) hmore

end CMinusMinus.Text
