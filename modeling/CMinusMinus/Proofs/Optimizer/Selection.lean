import CMinusMinus.Optimizer.Pass
import CMinusMinus.Proofs.Text.Spacing
import Mathlib

/-!
# Selections are read back

A comma ends a selector, so a selection of two parts selects what the parts select, one after the other. The
long name of a pass is read as one selector, whatever the case of its letters and whatever blanks stand around
it; the letters of passes without anything between them are read one by one, since no long name consists of
letters of passes.
-/

namespace CMinusMinus.Pass

variable {cs ds : List Char} {pass : Pass}

/-! ## Parts of a selection -/

theorem selected_comma (s t : String) : selected (s ++ "," ++ t) = selected s ++ selected t := by
  have hchars : (s ++ "," ++ t).toList = s.toList ++ ',' :: t.toList := by simp
  unfold selected
  rw [hchars, List.splitOnP_append_cons (p := (· == ',')) _ _ rfl, List.map_append, List.filter_append,
    List.flatMap_append]

/-- A text without a comma is one selector, if there is more than blanks in it. -/
theorem selected_single {s : String} (hcomma : ',' ∉ s.toList) (hne : Text.trim s.toList ≠ []) :
    selected s = ofSelector (Text.trim s.toList) := by
  have hsplit : s.toList.splitOnP (· == ',') = [s.toList] :=
    List.splitOnP_eq_singleton fun c hc => by simpa using ne_of_mem_of_not_mem hc hcomma
  unfold selected
  rw [hsplit, List.map_singleton, List.filter_cons_of_pos (by simpa using hne), List.filter_nil,
    List.flatMap_singleton]

/-- Where every selector names a pass, these passes are selected and nothing is unknown. -/
theorem select_eq {selection : String} {passes : List Pass} (h : selected selection = passes.map .ok) :
    select selection = passes ∧ unknown selection = [] := by
  unfold select unknown
  rw [h]
  constructor
  · rw [List.filterMap_map]
    exact List.filterMap_some
  · simp

/-! ## Case -/

/-- Each character of the second text is that of the first, or its capital. -/
def Recases (cs ds : List Char) : Prop :=
  List.Forall₂ (fun c d => d = c ∨ d = c.toUpper) cs ds

theorem Recases.lower_eq (h : Recases cs ds) : lower ds = lower cs := by
  unfold lower
  induction h with
  | nil => rfl
  | cons hd _ ih =>
    rw [List.map_cons, List.map_cons, ih]
    rcases hd with rfl | rfl
    · rfl
    · rw [Char.toLower_toUpper_eq_toLower]

/-- What no character has, and no capital of one, no character has in another case. -/
theorem Recases.forall {p : Char → Prop} (h : Recases cs ds) (hp : ∀ c ∈ cs, p c ∧ p c.toUpper) :
    ∀ d ∈ ds, p d := by
  induction h with
  | nil => nofun
  | cons hd _ ih =>
    obtain ⟨⟨hc, hupper⟩, hp⟩ := List.forall_mem_cons.1 hp
    refine List.forall_mem_cons.2 ⟨?_, ih hp⟩
    rcases hd with rfl | rfl
    · exact hc
    · exact hupper

/-! ## Long names -/

theorem lower_name (pass : Pass) : lower pass.name.toList = pass.name.toList := by
  cases pass <;> decide

theorem ofName?_eq_name (h : Recases pass.name.toList cs) : ofName? cs = some pass := by
  have hlower := h.lower_eq.trans pass.lower_name
  unfold ofName?
  rw [hlower]
  cases pass <;> decide

/-- A long name has no blank and no comma in it. -/
theorem solid_name (pass : Pass) : ∀ c ∈ pass.name.toList,
    (Text.isBlank c = false ∧ c ≠ ',') ∧ Text.isBlank c.toUpper = false ∧ c.toUpper ≠ ',' := by
  cases pass <;> simp only [name, String.reduceToList, List.mem_cons, List.not_mem_nil, or_false,
    forall_eq_or_imp, forall_eq, ne_eq, Char.reduceEq, Char.reduceToUpper, not_false_eq_true, and_true] <;> decide

/-- A selector that is the long name of a pass, in any case and with blanks around it. -/
structure Selector where
  pass : Pass
  before : List Char
  spelling : List Char
  after : List Char
  blankBefore : Text.Blanks before
  recases : Recases pass.name.toList spelling
  blankAfter : Text.Blanks after

namespace Selector

variable (selector : Selector)

def text : String :=
  String.ofList (selector.before ++ selector.spelling ++ selector.after)

theorem isWord_spelling : Text.IsWord selector.spelling := by
  refine ⟨?_, fun c hc => (selector.recases.forall selector.pass.solid_name c hc).1⟩
  have hlength := selector.recases.length_eq
  have hname : selector.pass.name.toList ≠ [] := by cases selector.pass <;> decide
  rw [← List.length_pos_iff, ← hlength]
  exact List.length_pos_iff.2 hname

theorem trim_text : Text.trim selector.text.toList = selector.spelling := by
  rw [text, String.toList_ofList]
  exact (Text.Spaced.one selector.isWord_spelling).trim_eq selector.blankBefore selector.blankAfter

theorem comma_not_mem_text : ',' ∉ selector.text.toList := by
  have hblank : ∀ {cs}, Text.Blanks cs → ',' ∉ cs := fun h hm => by
    have := h _ hm
    revert this
    decide
  have hspelling : ',' ∉ selector.spelling := fun hm =>
    (selector.recases.forall selector.pass.solid_name _ hm).2 rfl
  rw [text, String.toList_ofList]
  simp [hblank selector.blankBefore, hblank selector.blankAfter, hspelling]

theorem selected_text : selected selector.text = [.ok selector.pass] := by
  have hne : Text.trim selector.text.toList ≠ [] := by
    rw [selector.trim_text]
    exact selector.isWord_spelling.ne_nil
  rw [selected_single selector.comma_not_mem_text hne, selector.trim_text, ofSelector,
    ofName?_eq_name selector.recases]

end Selector

theorem selected_names (selectors : List Selector) :
    selected (",".intercalate (selectors.map Selector.text)) =
      (selectors.map Selector.pass).map .ok := by
  induction selectors with
  | nil => decide
  | cons selector selectors ih =>
    cases selectors with
    | nil => exact selector.selected_text
    | cons next rest =>
      rw [List.map_cons] at ih
      rw [List.map_cons, List.map_cons, String.intercalate_cons_cons, selected_comma, selector.selected_text,
        ih]
      rfl

/-! ## Letters -/

theorem lower_letters (passes : List Pass) : lower (passes.map letter) = passes.map letter := by
  rw [lower, List.map_map]
  refine List.map_congr_left fun pass _ => ?_
  cases pass <;> rfl

theorem ofName?_eq_letter {c : Char} (h : Recases [pass.letter] [c]) : ofName? [c] = some pass := by
  have hlower := h.lower_eq.trans (lower_letters [pass])
  unfold ofName?
  rw [hlower]
  cases pass <;> decide

/-- Two letters or more are no name. -/
theorem ofName?_letters {first second : Pass} {rest : List Pass}
    (h : Recases ((first :: second :: rest).map letter) cs) : ofName? cs = none := by
  have hlower := h.lower_eq.trans (lower_letters _)
  refine List.find?_eq_none.2 fun pass _ => ?_
  rw [hlower]
  cases pass <;> cases second <;> simp [letter, name]

theorem solid_letters (passes : List Pass) : ∀ c ∈ passes.map letter,
    (Text.isBlank c = false ∧ c ≠ ',' ∧ c ≠ '-') ∧
      Text.isBlank c.toUpper = false ∧ c.toUpper ≠ ',' ∧ c.toUpper ≠ '-' := by
  rw [List.forall_mem_map]
  intro pass _
  cases pass <;> decide

theorem map_ofLetter {passes : List Pass} (h : Recases (passes.map letter) cs) :
    cs.map ofLetter = passes.map .ok := by
  induction passes generalizing cs with
  | nil =>
    cases h
    rfl
  | cons pass passes ih =>
    cases h with
    | cons hc hrest =>
      rw [List.map_cons, List.map_cons, ih hrest, ofLetter, ofName?_eq_letter (.cons hc .nil)]

theorem ofSelector_letters {pass : Pass} {passes : List Pass}
    (h : Recases ((pass :: passes).map letter) cs) : ofSelector cs = (pass :: passes).map .ok := by
  unfold ofSelector
  cases passes with
  | nil =>
    obtain ⟨c, rfl⟩ := List.length_eq_one_iff.1 h.length_eq.symm
    rw [ofName?_eq_letter h]
    rfl
  | cons second passes =>
    -- Letters are read one by one only if they are no name together and there is no dash among them.
    have hdash : '-' ∉ cs := fun hm => (h.forall (solid_letters _) _ hm).2.2 rfl
    rw [ofName?_letters h, if_neg hdash]
    exact map_ofLetter h

theorem selected_letters {passes : List Pass} {letters : String}
    (h : Recases (passes.map letter) letters.toList) : selected letters = passes.map .ok := by
  cases passes with
  | nil =>
    have hnil : letters = "" := by simpa using List.forall₂_nil_left_iff.1 h
    rw [hnil]
    decide
  | cons pass passes =>
    have hsolid := h.forall (solid_letters _)
    have hword : Text.IsWord letters.toList := by
      refine ⟨?_, fun c hc => (hsolid c hc).1⟩
      rw [← List.length_pos_iff, ← h.length_eq]
      exact Nat.succ_pos _
    have htrim : Text.trim letters.toList = letters.toList := by
      simpa using (Text.Spaced.one hword).trim_eq Text.blanks_nil Text.blanks_nil
    rw [selected_single (fun hm => (hsolid _ hm).2.1 rfl) (by rw [htrim]; exact hword.ne_nil), htrim]
    exact ofSelector_letters h

/-! ## Selections -/

/-- Selections are read back and compose. The letters of passes in any case select these passes, and so do
their long names with commas between them, in any case and with any blanks around each; both leave nothing
unknown. Of two selections with a comma between them the passes and the unknown parts are those of the
first and those of the second. -/
theorem selection_composes :
    (∀ (passes : List Pass) (letters : String), Recases (passes.map letter) letters.toList →
      select letters = passes ∧ unknown letters = []) ∧
    (∀ selectors : List Selector,
      let names := ",".intercalate (selectors.map Selector.text)
      select names = selectors.map Selector.pass ∧ unknown names = []) ∧
    ∀ s t : String,
      select (s ++ "," ++ t) = select s ++ select t ∧
      unknown (s ++ "," ++ t) = unknown s ++ unknown t := by
  refine ⟨fun passes letters h => select_eq (selected_letters h),
    fun selectors => select_eq (selected_names selectors), fun s t => ?_⟩
  simp only [select, unknown, selected_comma, List.filterMap_append, and_self]

/-- Long names in capitals, with a wide blank, a tab and no blank around them. -/
def shouted : List Selector :=
  [⟨pruning, ['\u2003'], "DEAD-Code".toList, [' '], by simp [Text.Blanks, Text.isBlank, Text.blankRanges],
      by simp [Recases, name], by simp [Text.Blanks, Text.isBlank, Text.blankRanges]⟩,
    ⟨folding, [], "const-FOLDING".toList, ['\t'], Text.blanks_nil, by simp [Recases, name],
      by simp [Text.Blanks, Text.isBlank, Text.blankRanges]⟩]

theorem selection_composes_shouted :
    Recases ([pruning, folding, folding].map letter) "dCc".toList ∧
    select "dCc" = [pruning, folding, folding] ∧ unknown "dCc" = [] ∧
    select "\u2003DEAD-Code ,const-FOLDING\t" = [pruning, folding] ∧
    unknown "\u2003DEAD-Code ,const-FOLDING\t" = [] ∧
    unknown ("dead-cod" ++ "," ++ ", xz") = unknown "dead-cod" ++ unknown ", xz" := by
  have hcase : Recases ([pruning, folding, folding].map letter) "dCc".toList := by simp [Recases, letter]
  obtain ⟨hletters, hnames, hcomma⟩ := selection_composes
  have hshouted : ",".intercalate (shouted.map Selector.text) = "\u2003DEAD-Code ,const-FOLDING\t" := by
    decide
  have hboth := hnames shouted
  rw [hshouted] at hboth
  exact ⟨hcase, (hletters _ _ hcase).1, (hletters _ _ hcase).2, hboth.1, hboth.2, (hcomma _ _).2⟩

end CMinusMinus.Pass
