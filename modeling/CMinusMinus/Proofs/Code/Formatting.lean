import CMinusMinus.Proofs.Code.Reading
import CMinusMinus.Proofs.Code.Spelling
import CMinusMinus.Proofs.Text.Spacing
import Mathlib

/-!
# The layout of programs

The reader takes one line after the other. So an error depends on nothing behind its line, and on the lines up
to it only without their margins. What a line that is read holds depends on its words alone, and not on the case
of the letters of an operation code; so a text that loads can be laid out in other ways.
-/

namespace CMinusMinus

open Text

namespace Program

/-! ## One line -/

namespace Line

/-- Reads a line without its margins. -/
def readTrimmed (cs : List Char) : Except LoadError.Cause (Option Line) :=
  if isComment cs then
    .ok none
  else if cs.getLast? = some ':' then
    (ofLabel cs.dropLast).map some
  else
    (Instruction.ofWords ((words cs).map String.ofList)).map (some <| .instruction ·)

theorem read?_eq (raw : List Char) : read? raw = readTrimmed (trim raw) := rfl

/-- The first word tells a comment. -/
theorem isComment_first {w after : List Char} (hw : IsWord w) (hafter : ∀ c ∈ after.head?, isBlank c = true) :
    isComment (w ++ after) = isComment w := by
  match w, after with
  | [], _ => exact absurd rfl hw.ne_nil
  | [c], [] => rfl
  | [c], d :: after =>
    have hd : d ≠ '/' := by
      rintro rfl
      exact absurd (hafter '/' rfl) (by decide)
    unfold isComment
    split <;> split <;> simp_all
  | c :: d :: cs, after => exact isComment_cons_cons ..

theorem isComment_eq {ws : List (List Char)} {cs : List Char} (h : Spaced ws cs) :
    isComment cs = isComment (ws.headD []) := by
  obtain ⟨w, rest, after, rfl, rfl, hw, hafter⟩ := h.exists_first
  exact isComment_first hw hafter

theorem ofLabel_append {name gap : List Char} (hname : IsWord name) (hgap : Blanks gap) :
    ofLabel (name ++ gap) = .ok (.label (String.ofList name)) := by
  have hblank : name.any isBlank = false := by simpa using hname.solid
  simp [ofLabel, trimEnd_append_blanks hgap, hname.trimEnd_eq, hname.ne_nil, hblank]

/-- The words of a line with a label are the name with the colon, or both of them. -/
theorem ofLabel_congr {ws : List (List Char)} {cs cs' : List Char} {line : Line}
    (h : Spaced ws (cs ++ [':'])) (h' : Spaced ws (cs' ++ [':'])) (hl : ofLabel cs = .ok line) :
    ofLabel cs' = .ok line := by
  obtain ⟨name, gap, rfl, hname, hgap, rfl⟩ := exists_of_ofLabel hl
  have hcolon : ∀ {w : List Char}, (∀ c ∈ w, isBlank c = false) → IsWord (w ++ [':']) := fun hw =>
    ⟨by simp, by simpa using fun c hc => hc.elim (hw c) (by rintro rfl; decide)⟩
  by_cases hnil : gap = []
  · rw [hnil, List.append_nil] at h
    have hws : ws = [name ++ [':']] := h.words_eq.symm.trans (hcolon hname.solid).words_eq
    have hcs' : cs' = name := List.append_cancel_right (hws ▸ h').eq_of_single
    have hread := ofLabel_append hname blanks_nil
    rw [List.append_nil] at hread
    rwa [hcs']
  · have hws : ws = [name, [':']] := by
      have hlast : IsWord [':'] := hcolon (w := []) nofun
      rw [← h.words_eq, words_gap hgap hnil, hname.words_eq, hlast.words_eq]
      rfl
    obtain ⟨gap', hgap', hcs'⟩ := (hws ▸ h').eq_of_pair
    rw [List.append_cancel_right hcs']
    exact ofLabel_append hname hgap'

/-- What a trimmed line holds depends on its words. -/
theorem readTrimmed_congr {ws : List (List Char)} {cs cs' : List Char} {line? : Option Line}
    (h : Spaced ws cs) (h' : Spaced ws cs') (hread : readTrimmed cs = .ok line?) :
    readTrimmed cs' = .ok line? := by
  have hend : cs'.getLast? = cs.getLast? := by rw [h'.getLast?_eq, h.getLast?_eq]
  unfold readTrimmed at hread ⊢
  rw [isComment_eq h', ← isComment_eq h, hend, h'.words_eq, ← h.words_eq]
  split
  · rwa [if_pos ‹_›] at hread
  · rw [if_neg ‹_›] at hread
    split
    · rename_i hcolon
      rw [if_pos hcolon] at hread
      obtain ⟨line, hl, hline⟩ := map_eq_ok hread
      rw [← List.dropLast_append_getLast? _ hcolon] at h
      rw [← List.dropLast_append_getLast? _ (hend.trans hcolon)] at h'
      rw [ofLabel_congr h h' hl, ← hline]
      rfl
    · rwa [if_neg ‹_›] at hread

/-- What a line holds depends on its words. -/
theorem read?_congr {raw raw' : List Char} (hwords : words raw' = words raw) {line? : Option Line}
    (h : read? raw = .ok line?) : read? raw' = .ok line? := by
  rw [read?_eq] at h ⊢
  rcases spaced_trim raw with ⟨htrim, hnone⟩ | hs <;>
    rcases spaced_trim raw' with ⟨htrim', hnone'⟩ | hs'
  · rwa [htrim', ← htrim]
  · rw [hwords, hnone] at hs'
    cases hs'
  · rw [← hwords, hnone'] at hs
    cases hs
  · exact readTrimmed_congr hs (hwords ▸ hs') h

/-! ## Lines that hold nothing -/

/-- A blank line, or a comment behind a margin. -/
inductive Idle : List Char → Prop where
  | blank {cs : List Char} (h : Blanks cs) : Idle cs
  | hash {margin : List Char} (h : Blanks margin) (cs : List Char) : Idle (margin ++ '#' :: cs)
  | slashes {margin : List Char} (h : Blanks margin) (cs : List Char) : Idle (margin ++ '/' :: '/' :: cs)

theorem Idle.read?_eq {raw : List Char} (h : Idle raw) : read? raw = .ok none := by
  have hmark : ∀ {w : List Char}, IsWord w → (∀ after, isComment (w ++ after) = true) →
      ∀ {margin}, Blanks margin → ∀ cs, read? (margin ++ (w ++ cs)) = .ok none := by
    intro w hw hcomment margin hmargin cs
    obtain ⟨after, hafter⟩ := hw.exists_trimEnd cs
    rw [Line.read?_eq, trim, trimStart_blanks_append hmargin, hw.trimStart_append, hafter]
    exact if_pos (hcomment after)
  cases h with
  | blank h =>
    have htrim := trimStart_blanks_append h []
    rw [List.append_nil] at htrim
    rw [Line.read?_eq, trim, htrim]
    rfl
  | hash h cs =>
    have hw : IsWord ['#'] := ⟨by simp, by simpa using (by decide : isBlank '#' = false)⟩
    exact hmark hw (fun _ => rfl) h cs
  | slashes h cs =>
    have hw : IsWord ['/', '/'] := ⟨by simp, by simpa using (by decide : isBlank '/' = false)⟩
    exact hmark hw (fun _ => rfl) h cs

end Line

end Program

/-! ## Operation codes -/

namespace Opcode

theorem ofName?_congr {text text' : String} (h : text'.toLower = text.toLower) :
    ofName? text' = ofName? text := by
  unfold ofName?
  rw [h]

theorem isAlpha_of_isAlpha_toLower {c : Char} (h : c.toLower.isAlpha = true) : c.isAlpha = true := by
  unfold Char.toLower at h
  split at h
  · rename_i hupper
    have hupper : c.isUpper = true := by simpa [Char.isUpper] using hupper
    rw [Char.isAlpha, hupper, Bool.true_or]
  · exact h

theorem isAlpha_name (opcode : Opcode) : opcode.name.toList.all (·.toLower.isAlpha) = true := by
  cases opcode with
  | binary op => cases op <;> decide
  | _ => decide

/-- Whatever spells an operation code consists of letters. -/
theorem plain_of_ofName? {text : String} {opcode : Opcode} (h : ofName? text = some opcode) : Plain text := by
  have hlower : opcode.name.toLower = text.toLower := by simpa using List.find?_some h
  have hname : text.toList.map Char.toLower = opcode.name.toList.map Char.toLower := by
    rw [← String.toList_map, ← String.toList_map]
    exact congrArg String.toList hlower.symm
  have hletters : ∀ c ∈ text.toList, c.isAlpha = true := by
    intro c hc
    obtain ⟨d, hd, hcase⟩ := List.mem_map.1 (hname ▸ List.mem_map_of_mem hc)
    refine isAlpha_of_isAlpha_toLower ?_
    rw [← hcase]
    exact List.all_eq_true.1 opcode.isAlpha_name d hd
  refine ⟨fun hnil => ?_, fun c hc => by simp [isPlain, Char.isAlphanum, hletters c hc]⟩
  rw [hnil, List.map_nil] at hname
  exact opcode.isWord_name.ne_nil (List.map_eq_nil_iff.1 hname.symm)

end Opcode

theorem Instruction.ofWords_congr {w w' : String} {ws : List String} (h : w'.toLower = w.toLower)
    {i : Instruction} (hi : ofWords (w :: ws) = .ok i) : ofWords (w' :: ws) = .ok i := by
  unfold ofWords at hi ⊢
  simp only [List.headD_cons, List.tail_cons] at hi ⊢
  rw [Opcode.ofName?_congr h]
  cases ho : Opcode.ofName? w with
  | none =>
    rw [ho] at hi
    cases hi
  | some opcode => rwa [ho] at hi

theorem Instruction.exists_opcode {w : String} {ws : List String} {i : Instruction}
    (hi : ofWords (w :: ws) = .ok i) : ∃ opcode, Opcode.ofName? w = some opcode := by
  unfold ofWords at hi
  simp only [List.headD_cons] at hi
  cases ho : Opcode.ofName? w with
  | none =>
    rw [ho] at hi
    cases hi
  | some opcode => exact ⟨opcode, rfl⟩

namespace Program

namespace Line

/-- A line that is read as an instruction does not end like a label. -/
theorem ofWords_of_read? {raw : List Char} {i : Instruction} (h : read? raw = .ok (some (.instruction i))) :
    Instruction.ofWords ((words raw).map String.ofList) = .ok i ∧ (trim raw).getLast? ≠ some ':' := by
  rw [read?_eq, readTrimmed] at h
  split at h
  · cases h
  · rename_i hplain
    have hwords : words (trim raw) = words raw := by
      rcases spaced_trim raw with ⟨htrim, -⟩ | hs
      · exact absurd (by rw [htrim]; rfl) hplain
      · exact hs.words_eq
    split at h
    · obtain ⟨line, hl, h⟩ := map_eq_ok h
      obtain ⟨name, gap, -, -, -, rfl⟩ := exists_of_ofLabel hl
      cases h
    · obtain ⟨j, hj, h⟩ := map_eq_ok h
      cases h
      rw [hwords] at hj
      exact ⟨hj, ‹_›⟩

theorem toLower_congr {w w' : List Char} (h : w'.map Char.toLower = w.map Char.toLower) :
    (String.ofList w').toLower = (String.ofList w).toLower := by
  refine String.toList_injective ?_
  rw [String.toLower, String.toLower, String.toList_map, String.toList_map, String.toList_ofList,
    String.toList_ofList, h]

/-- The case of the letters of an operation code does not matter. -/
theorem read?_spelling {margin w w' after : List Char} (hmargin : Blanks margin) (hw : IsWord w)
    (hafter : ∀ c ∈ after.head?, isBlank c = true) (hcase : w'.map Char.toLower = w.map Char.toLower)
    {i : Instruction} (h : read? (margin ++ w ++ after) = .ok (some (.instruction i))) :
    read? (margin ++ w' ++ after) = .ok (some (.instruction i)) := by
  obtain ⟨hi, hend⟩ := ofWords_of_read? h
  have hwords : words (margin ++ w ++ after) = w :: words after := by
    rw [List.append_assoc, words_blanks_append hmargin, hw.words_append hafter]
  rw [hwords, List.map_cons] at hi
  obtain ⟨opcode, ho⟩ := Instruction.exists_opcode hi
  have hi' := Instruction.ofWords_congr (toLower_congr hcase) hi
  have hplain : Plain (String.ofList w') := by
    rw [← Opcode.ofName?_congr (toLower_congr hcase)] at ho
    exact Opcode.plain_of_ofName? ho
  have hw' : IsWord w' := by simpa using hplain.isWord
  have hwords' : words (margin ++ w' ++ after) = w' :: words after := by
    rw [List.append_assoc, words_blanks_append hmargin, hw'.words_append hafter]
  -- neither word is empty, so both trimmed lines are spaced by their words
  have hs : Spaced (w :: words after) (trim (margin ++ w ++ after)) := by
    rcases spaced_trim (margin ++ w ++ after) with ⟨-, hnone⟩ | hs
    · cases hwords.symm.trans hnone
    · rwa [hwords] at hs
  have hs' : Spaced (w' :: words after) (trim (margin ++ w' ++ after)) := by
    rcases spaced_trim (margin ++ w' ++ after) with ⟨-, hnone⟩ | hs'
    · cases hwords'.symm.trans hnone
    · rwa [hwords'] at hs'
  have hcomment : isComment (trim (margin ++ w' ++ after)) = false := by
    have hnot := hplain.not_comment []
    rw [String.toList_ofList, List.append_nil] at hnot
    rw [isComment_eq hs', List.headD_cons, hnot]
  have hend' : (trim (margin ++ w' ++ after)).getLast? ≠ some ':' := by
    rw [hs'.getLast?_eq]
    rw [hs.getLast?_eq] at hend
    cases hafter : words after with
    | nil => simpa using hplain.getLast?_ne
    | cons v vs => simpa [hafter] using hend
  rw [read?_eq, readTrimmed, hcomment, if_neg (by decide), if_neg hend', hs'.words_eq, List.map_cons, hi']
  rfl

/-! ## Other layouts of a line -/

/-- A line has other margins or another gap between two words, or letters of its operation code have another
case. -/
inductive Edit : List Char → List Char → Prop where
  | margins {before after before' after' : List Char} (hbefore : Blanks before) (hafter : Blanks after)
    (hbefore' : Blanks before') (hafter' : Blanks after') (cs : List Char) :
    Edit (before ++ cs ++ after) (before' ++ cs ++ after')
  | gap {gap gap' : List Char} (hne : gap ≠ []) (hgap : Blanks gap) (hne' : gap' ≠ []) (hgap' : Blanks gap')
    (before after : List Char) : Edit (before ++ gap ++ after) (before ++ gap' ++ after)
  | spelling {margin w w' after : List Char} {i : Instruction} (hmargin : Blanks margin) (hw : IsWord w)
    (hafter : ∀ c ∈ after.head?, isBlank c = true) (hcase : w'.map Char.toLower = w.map Char.toLower)
    (hi : read? (margin ++ w ++ after) = .ok (some (.instruction i))) :
    Edit (margin ++ w ++ after) (margin ++ w' ++ after)

theorem Edit.read? {raw raw' : List Char} (h : Edit raw raw') {line? : Option Line}
    (hread : Line.read? raw = .ok line?) : Line.read? raw' = .ok line? := by
  cases h with
  | margins hbefore hafter hbefore' hafter' cs =>
    refine read?_congr ?_ hread
    rw [words_margins hbefore hafter, words_margins hbefore' hafter']
  | gap hne hgap hne' hgap' before after =>
    refine read?_congr ?_ hread
    rw [words_gap hgap hne, words_gap hgap' hne']
  | spelling hmargin hw hafter hcase hi =>
    cases hi.symm.trans hread
    exact read?_spelling hmargin hw hafter hcase hi

end Line

/-! ## Lines of a text -/

/-- Lines that are read from any program on, are read to the same one in other lines, whatever their
numbers are. -/
def Keeps (raws raws' : List (List Char)) : Prop :=
  ∀ (p q : Program) (number number' : Nat), p.readLines number raws = .ok q →
    p.readLines number' raws' = .ok q

theorem Keeps.cons {raw raw' : List Char} {raws raws' : List (List Char)}
    (hread : ∀ line?, Line.read? raw = .ok line? → Line.read? raw' = .ok line?) (h : Keeps raws raws') :
    Keeps (raw :: raws) (raw' :: raws') := by
  intro p q number number' hq
  rw [readLines] at hq ⊢
  split at hq
  · rename_i p' hp
    obtain ⟨line?, hline, hadd⟩ := bind_eq_ok hp
    have hp' : p.readLine raw' = .ok p' := by rw [readLine, hread _ hline]; exact hadd
    rw [hp']
    exact h _ _ _ _ hq
  · cases hq

theorem keeps_refl (raws : List (List Char)) : Keeps raws raws := by
  induction raws with
  | nil => exact fun _ _ _ _ hq => hq
  | cons raw raws ih => exact Keeps.cons (fun _ h => h) ih

theorem Keeps.insert {raw : List Char} (h : Line.read? raw = .ok none) (raws : List (List Char)) :
    Keeps raws (raw :: raws) := by
  intro p q number number' hq
  have hp : p.readLine raw = .ok p := by rw [readLine, h]; rfl
  rw [readLines, hp]
  exact keeps_refl raws _ _ _ _ hq

theorem Keeps.append {raws raws' : List (List Char)} (h : Keeps raws raws') (before : List (List Char)) :
    Keeps (before ++ raws) (before ++ raws') := by
  induction before with
  | nil => exact h
  | cons raw before ih => exact Keeps.cons (fun _ h => h) ih

/-- Lines are laid out in another way in one place: there is one more line that holds nothing, or a line is
laid out in another way. -/
inductive Edit : List (List Char) → List (List Char) → Prop where
  | insert {raw : List Char} (h : Line.Idle raw) (before after : List (List Char)) :
    Edit (before ++ after) (before ++ raw :: after)
  | line {raw raw' : List Char} (h : Line.Edit raw raw') (before after : List (List Char)) :
    Edit (before ++ raw :: after) (before ++ raw' :: after)

theorem Edit.keeps {raws raws' : List (List Char)} (h : Edit raws raws') : Keeps raws raws' := by
  cases h with
  | insert h before after => exact (Keeps.insert h.read?_eq after).append before
  | line h before after => exact (Keeps.cons (fun _ hread => h.read? hread) (keeps_refl after)).append before

theorem keeps_of_edits {raws raws' : List (List Char)} (h : Relation.ReflTransGen Edit raws raws') :
    Keeps raws raws' := by
  induction h with
  | refl => exact keeps_refl raws
  | tail _ hedit ih =>
    intro p q number number' hq
    exact hedit.keeps p q number number' (ih p q number number hq)

theorem keeps_withReturns (cs : List Char) : Keeps (Text.lines cs) (Text.lines (withReturns cs)) := by
  have hreturn : Blanks ['\r'] := by simpa [Blanks] using (by decide : isBlank '\r' = true)
  have hlines := lines_withReturns cs
  generalize Text.lines cs = raws at hlines ⊢
  generalize Text.lines (withReturns cs) = raws' at hlines ⊢
  induction hlines with
  | nil => exact keeps_refl []
  | cons hl _ ih =>
    refine Keeps.cons (fun line? hread => ?_) ih
    rcases hl with rfl | rfl
    · exact hread
    · exact Line.read?_congr (words_append_blanks hreturn _) hread

theorem load_of_error {text : String} {e : LoadError}
    (h : empty.readLines 1 (Text.lines text.toList) = .error e) : load text = .error e := by
  rw [load, h]
  rfl

theorem load_of_ok {text : String} {p : Program} (h : empty.readLines 1 (Text.lines text.toList) = .ok p) :
    load text = if p.entry?.isSome then .ok p else .error ⟨none, .missingEntry⟩ := by
  rw [load, h]
  rfl

/-- Lines that are read alike make texts that load alike. -/
theorem Keeps.load {text text' : String} (h : Keeps (Text.lines text.toList) (Text.lines text'.toList))
    {p : Program} (hp : Program.load text = .ok p) : Program.load text' = .ok p := by
  cases hread : empty.readLines 1 (Text.lines text.toList) with
  | error e => cases (load_of_error hread).symm.trans hp
  | ok q =>
    rw [load_of_ok hread] at hp
    rw [load_of_ok (h _ _ _ _ hread), hp]

/-! ## Errors -/

theorem readLine_congr (p : Program) {raw raw' : List Char} (h : trim raw' = trim raw) :
    p.readLine raw' = p.readLine raw := by
  rw [readLine, readLine, Line.read?_eq, Line.read?_eq, h]

/-- An error has the number of a line, and comes from the lines up to that one, of which all others are
read. -/
theorem readLines_error {p : Program} {raws : List (List Char)} {number : Nat} {e : LoadError}
    (h : p.readLines number raws = .error e) : ∃ k < raws.length, e.line = some (number + k) ∧
      (∀ raws' : List (List Char), (raws'.take (k + 1)).map trim = (raws.take (k + 1)).map trim →
        p.readLines number raws' = .error e) ∧
      ∃ q, p.readLines number (raws.take k) = .ok q := by
  induction raws generalizing p number with
  | nil => cases h
  | cons raw raws ih =>
    rw [readLines] at h
    cases hp : p.readLine raw with
    | error cause =>
      rw [hp] at h
      cases h
      refine ⟨0, Nat.succ_pos _, rfl, fun raws' hraws' => ?_, p, rfl⟩
      cases raws' with
      | nil => simp at hraws'
      | cons raw' raws' =>
        obtain ⟨htrim, -⟩ := List.cons.inj hraws'
        rw [readLines, readLine_congr p htrim, hp]
    | ok p' =>
      rw [hp] at h
      obtain ⟨k, hk, hline, hsame, q, hq⟩ := ih h
      refine ⟨k + 1, Nat.succ_lt_succ hk, ?_, fun raws' hraws' => ?_, q, ?_⟩
      · rw [hline, Nat.add_assoc, Nat.add_comm 1 k]
      · cases raws' with
        | nil => simp at hraws'
        | cons raw' raws' =>
          obtain ⟨htrim, hrest⟩ := List.cons.inj hraws'
          rw [readLines, readLine_congr p htrim, hp]
          exact hsame raws' hrest
      · rw [List.take_succ_cons, readLines, hp]
        exact hq

theorem readLines_blank {p q : Program} {number : Nat} {raws : List (List Char)}
    (h : p.readLines number raws = .ok q) : p.readLines number (raws ++ [[]]) = .ok q := by
  induction raws generalizing p number with
  | nil => exact h
  | cons raw raws ih =>
    rw [List.cons_append, readLines] at *
    cases hp : p.readLine raw with
    | error cause =>
      rw [hp] at h
      cases h
    | ok p' =>
      rw [hp] at h
      exact ih h

/-- The text in front of a line. -/
def textBefore (text : String) (number : Nat) : String :=
  String.ofList (((Text.lines text.toList).take (number - 1)).flatMap (· ++ ['\n']))

theorem lines_textBefore (text : String) (number : Nat) : Text.lines (textBefore text number).toList =
    (Text.lines text.toList).take (number - 1) ++ [[]] := by
  rw [textBefore, String.toList_ofList]
  exact lines_flatMap fun l hl => not_of_mem_splitOnP (List.mem_of_mem_take hl)

/-- What an error in a line says of other texts. -/
structure ErrorIn (text : String) (number : Nat) (cause : LoadError.Cause) : Prop where
  /-- Every text with the same lines up to that one has the same error, whatever the margins are. -/
  same : ∀ text' : String, ((Text.lines text'.toList).take number).map trim =
    ((Text.lines text.toList).take number).map trim → load text' = .error ⟨some number, cause⟩
  /-- The text in front of the line loads, but that it may have no entry. -/
  cut : ∃ rest : String, text = textBefore text number ++ rest ∧
    Text.lines rest.toList = (Text.lines text.toList).drop (number - 1)
  before : (∃ p, load (textBefore text number) = .ok p) ∨
    load (textBefore text number) = .error ⟨none, .missingEntry⟩

theorem errorIn_of_load {text : String} {number : Nat} {cause : LoadError.Cause}
    (h : load text = .error ⟨some number, cause⟩) : ErrorIn text number cause := by
  cases hread : empty.readLines 1 (Text.lines text.toList) with
  | ok p =>
    rw [load_of_ok hread] at h
    split at h <;> cases h
  | error e =>
    rw [load_of_error hread] at h
    cases h
    obtain ⟨k, hk, hline, hsame, q, hq⟩ := readLines_error hread
    obtain rfl : number = k + 1 := by simpa [Nat.add_comm 1 k] using hline
    constructor
    · exact fun text' hlines => load_of_error (hsame _ hlines)
    · obtain ⟨rest, htext, hrest⟩ := exists_of_take_lines hk
      refine ⟨String.ofList rest, String.toList_injective ?_, by rw [String.toList_ofList, hrest]; rfl⟩
      rw [String.toList_append, textBefore, String.toList_ofList, String.toList_ofList]
      exact htext
    · have hbefore : empty.readLines 1 (Text.lines (textBefore text (k + 1)).toList) = .ok q := by
        rw [lines_textBefore]
        exact readLines_blank hq
      rw [load_of_ok hbefore]
      split
      · exact .inl ⟨q, rfl⟩
      · exact .inr rfl

/-! ## Texts -/

/-- Loading is local to lines and does not see their layout. An error in a line comes from the lines up to it,
and in front of it there is no other one. A text that loads still loads to the same program with blank lines and
comments between its lines, with other margins and gaps in them, with carriage returns at their ends, and with
its operation codes in letters of another case. -/
theorem load_layout :
    (∀ (text : String) (number : Nat) (cause : LoadError.Cause),
      load text = .error ⟨some number, cause⟩ → ErrorIn text number cause) ∧
    ∀ (text : String) (p : Program), load text = .ok p →
      (∀ text' : String, Relation.ReflTransGen Edit (Text.lines text.toList) (Text.lines text'.toList) →
        load text' = .ok p) ∧
      load (String.ofList (withReturns text.toList)) = .ok p := by
  refine ⟨fun text number cause h => errorIn_of_load h, fun text p h => ⟨fun text' hedits => ?_, ?_⟩⟩
  · exact (keeps_of_edits hedits).load h
  · refine Keeps.load ?_ h
    rw [String.toList_ofList]
    exact keeps_withReturns _

/-- An error in the third line, and a program of three lines with a comment, another margin, another gap and
another case. -/
theorem load_layout_push :
    let text := "main:\n push 1\n frob 2\nprint\n"
    let text' := "main:\r\npush 1 \n\tfrob 2"
    load text = .error ⟨some 3, .unknownOpcode "frob"⟩ ∧
    load text' = .error ⟨some 3, .unknownOpcode "frob"⟩ ∧
    let plain := "main:\npush 1\nreturn 0"
    let other := "main:\n# one\n PUSH  1\nreturn 0"
    ∃ p, load plain = .ok p ∧ Relation.ReflTransGen Edit (Text.lines plain.toList) (Text.lines other.toList) ∧
      load other = .ok p := by
  intro text text'
  have herror : load text = .error ⟨some 3, .unknownOpcode "frob"⟩ := by cbv
  have hsame : ((Text.lines text'.toList).take 3).map trim = ((Text.lines text.toList).take 3).map trim := by
    decide
  refine ⟨herror, (load_layout.1 text 3 _ herror).same text' hsame, ?_⟩
  intro plain other
  have hplain : load plain = .ok ⟨#[⟨.push, ["1"]⟩, ⟨.ret, ["0"]⟩], .ofList [("main", 0)]⟩ := by cbv
  have hedits : Relation.ReflTransGen Edit (Text.lines plain.toList) (Text.lines other.toList) := by
    have hspace : isBlank ' ' = true := by decide
    have hblank : Blanks [' '] := by simpa [Blanks] using hspace
    have hblanks : Blanks [' ', ' '] := by simpa [Blanks] using hspace
    have hafter : ∀ c ∈ "  1".toList.head?, isBlank c = true := by simpa using hspace
    have hpush : Line.read? ([' '] ++ "push".toList ++ "  1".toList) =
        .ok (some (.instruction ⟨.push, ["1"]⟩)) := by cbv
    have hcase : "PUSH".toList.map Char.toLower = "push".toList.map Char.toLower := by decide
    let commented (raw : List Char) := ["main:".toList, "# one".toList] ++ raw :: ["return 0".toList]
    have hplain : Text.lines plain.toList = ["main:".toList] ++ ["push 1".toList, "return 0".toList] := by decide
    have hother : Text.lines other.toList = commented ([' '] ++ "PUSH".toList ++ "  1".toList) := by decide
    have hinsert : Edit (["main:".toList] ++ ["push 1".toList, "return 0".toList]) (commented "push 1".toList) :=
      .insert (.hash blanks_nil " one".toList) _ _
    have hmargin : Edit (commented "push 1".toList) (commented ([' '] ++ "push 1".toList ++ [])) :=
      .line (.margins blanks_nil blanks_nil hblank blanks_nil "push 1".toList) _ _
    have hgap : Edit (commented ([' '] ++ "push 1".toList ++ []))
        (commented ([' '] ++ "push".toList ++ "  1".toList)) :=
      .line (.gap (by simp) hblank (by simp) hblanks " push".toList "1".toList) _ _
    have hspelling : Edit (commented ([' '] ++ "push".toList ++ "  1".toList))
        (commented ([' '] ++ "PUSH".toList ++ "  1".toList)) :=
      .line (.spelling hblank Opcode.push.isWord_name hafter hcase hpush) _ _
    rw [hplain, hother]
    exact .tail (.tail (.tail (.single hinsert) hmargin) hgap) hspelling
  exact ⟨_, hplain, hedits, (load_layout.2 plain _ hplain).1 other hedits⟩

end Program

end CMinusMinus
