import CMinusMinus.Proofs.Text.Numeral
import CMinusMinus.Source.Lexer
import Mathlib

/-!
# Written tokens are read back

A token has the characters that write it, and between tokens stand blanks and comments. However a list of
tokens is written like that, the lexer gives back these tokens, each with the place where its first character
stands. A blank in front of what separates two tokens keeps them apart: no token goes on over it, and a
division before it does not become a comment.
-/

namespace CMinusMinus

/-! ## Places -/

namespace Loc

/-- The place behind a text that starts at a place. -/
def past (loc : Loc) (cs : List Char) : Loc :=
  cs.foldl advance loc

theorem past_append (loc : Loc) (cs ds : List Char) : loc.past (cs ++ ds) = (loc.past cs).past ds :=
  List.foldl_append

theorem shift_shift (loc : Loc) (m n : Nat) : (loc.shift m).shift n = loc.shift (m + n) := by
  simp only [shift, UInt32.ofNat_add, UInt32.add_assoc]

theorem past_of_no_newline {cs : List Char} (h : '\n' ∉ cs) (loc : Loc) :
    loc.past cs = loc.shift cs.length := by
  induction cs generalizing loc with
  | nil => simp [past, shift]
  | cons c cs ih =>
    obtain ⟨hc, hcs⟩ := List.ne_and_not_mem_of_not_mem_cons h
    have hstep : loc.advance c = loc.shift 1 := if_neg hc.symm
    rw [past, List.foldl_cons, hstep, ← past, ih hcs, shift_shift, List.length_cons, Nat.add_comm]

/-- The characters behind the last newline of a text. -/
def lastLine (cs : List Char) : List Char :=
  cs.rtakeWhile (· ≠ '\n')

theorem lastLine_concat (cs : List Char) (c : Char) :
    lastLine (cs ++ [c]) = if c = '\n' then [] else lastLine cs ++ [c] := by
  unfold lastLine
  rw [List.rtakeWhile_concat]
  by_cases hc : c = '\n' <;> simp [hc]

/-- A place is behind a text: its line is one more than the newlines in the text, its column one more than the
characters behind the last of them. -/
structure Behind (loc : Loc) (cs : List Char) : Prop where
  line : loc.line.toNat = 1 + cs.count '\n'
  column : loc.column.toNat = 1 + (lastLine cs).length

/-- The place behind a text, where the numbers of a place go round if they must. -/
def after (cs : List Char) : Loc :=
  ⟨.ofNat (1 + cs.count '\n'), .ofNat (1 + (lastLine cs).length)⟩

theorem after_concat (cs : List Char) (c : Char) : after (cs ++ [c]) = (after cs).advance c := by
  unfold after advance
  rw [List.count_append, lastLine_concat]
  by_cases hc : c = '\n'
  · simp [hc, ← Nat.add_assoc, UInt32.ofNat_add]
  · simp [hc, shift, ← Nat.add_assoc, UInt32.ofNat_add]

theorem past_start (cs : List Char) : start.past cs = after cs := by
  induction cs using List.reverseRecOn with
  | nil => rfl
  | append_singleton cs c ih => rw [past_append, ih, after_concat, past, List.foldl_cons, List.foldl_nil]

end Loc

/-! ## Blanks and words -/

namespace Text

theorem isIdentifierRest_of_isBlank {c : Char} (h : isBlank c = true) : isIdentifierRest c = false := by
  rw [Bool.eq_false_iff]
  intro hrest
  have hval : c.toNat = c.val.toNat := rfl
  simp only [isBlank, blankRanges, List.any_cons, List.any_nil, Bool.or_eq_true, Bool.and_eq_true,
    decide_eq_true_eq, Bool.false_eq_true, or_false] at h
  simp only [isIdentifierRest, Char.isAlphanum, Char.isAlpha, Char.isUpper, Char.isLower, Char.isDigit,
    Bool.or_eq_true, Bool.and_eq_true, decide_eq_true_eq, beq_iff_eq, UInt32.le_iff_toNat_le, ge_iff_le,
    Char.reduceVal, UInt32.reduceToNat] at hrest
  rcases hrest with hrest | rfl
  · omega
  · simp at h

theorem isIdentifierRest_of_isIdentifierStart {c : Char} (h : isIdentifierStart c = true) :
    isIdentifierRest c = true := by
  simp only [isIdentifierStart, isIdentifierRest, Char.isAlphanum, Bool.or_eq_true] at h ⊢
  exact h.imp_left .inl

theorem isIdentifierRest_of_isDigit {c : Char} (h : c.isDigit = true) : isIdentifierRest c = true := by
  simp [isIdentifierRest, Char.isAlphanum, h]

/-- What starts with a blank, if with anything. -/
def Apart (cs : List Char) : Prop :=
  ∀ c ∈ cs.head?, isBlank c = true

theorem Apart.head?_ne {cs : List Char} (h : Apart cs) {c : Char} (hc : isBlank c = false) :
    cs.head? ≠ some c := fun hhead => by simp [h c hhead] at hc

/-- A run of characters of a kind ends where a blank comes. -/
theorem Apart.takeWhile_append {p : Char → Bool} {cs rest : List Char} (hrest : Apart rest)
    (hp : ∀ c, p c = true → isIdentifierRest c = true) (hcs : ∀ c ∈ cs, p c = true) :
    (cs ++ rest).takeWhile p = cs := by
  rw [List.takeWhile_append_of_pos hcs]
  cases rest with
  | nil => simp
  | cons c rest =>
    have hc := isIdentifierRest_of_isBlank (hrest c rfl)
    rw [List.takeWhile_cons_of_neg (fun h => by simp [hp c h] at hc), List.append_nil]

end Text

/-! ## Spellings -/

/-- The characters write the token: a name that is no reserved word, decimal digits, a reserved word, a mark
or an operator. -/
inductive Token.Spells : Token → List Char → Prop where
  | identifier {name : String} (hname : Text.isIdentifier name = true)
    (hfree : ∀ word : Keyword, word.spelling ≠ name) : Spells (.identifier name) name.toList
  | integer {cs : List Char} (hcs : Text.isDigits cs = true) : Spells (.integer (Text.digitsValue cs)) cs
  | keyword (word : Keyword) : Spells (.keyword word) word.spelling.toList
  | mark (mark : Mark) : Spells (.mark mark) [mark.char]
  | operator (op : BinaryOp) : Spells (.operator op) op.symbol.toList

theorem Token.spells_numeral (n : Nat) : (Token.integer n).Spells (Text.numeral n).toList := by
  have h := Spells.integer (Text.isDigits_toDigits n)
  rw [Text.digitsValue_toDigits] at h
  rwa [← Nat.toList_repr] at h

theorem Token.ofWord_keyword (word : Keyword) : ofWord word.spelling = .keyword word := by
  cases word <;> rfl

theorem Token.ofWord_free {name : String} (hfree : ∀ word : Keyword, word.spelling ≠ name) :
    ofWord name = .identifier name := by
  have hnone : Keyword.all.find? (·.spelling == name) = none :=
    List.find?_eq_none.2 fun word _ => by simpa using hfree word
  rw [ofWord, hnone]

/-- Blanks, and comments that a newline closes, in any order. -/
inductive Filler : List Char → Prop where
  | nil : Filler []
  | blank {c : Char} {cs : List Char} (hc : Text.isBlank c = true) (h : Filler cs) : Filler (c :: cs)
  | comment {body cs : List Char} (hbody : '\n' ∉ body) (h : Filler cs) :
    Filler ('/' :: '/' :: body ++ '\n' :: cs)

/-- A token that is written, and what stands behind it up to the next one. -/
structure Piece where
  token : Token
  spelling : List Char
  gap : List Char
  spells : token.Spells spelling
  filler : Filler gap
  apart : Text.Apart gap

def Piece.text (piece : Piece) : List Char :=
  piece.spelling ++ piece.gap

namespace Lexer

variable {loc : Loc} {read : Array Lexeme} {token : Token} {c : Char} {cs more rest : List Char}

/-! ## What one token takes -/

theorem tokenAt_symbol (hc : Text.isIdentifierRest c = false) (cs : List Char) :
    tokenAt c cs = symbolAt c cs.head? := by
  have hdigit : ¬ c.isDigit = true := fun h => by simp [Text.isIdentifierRest_of_isDigit h] at hc
  have hstart : ¬ Text.isIdentifierStart c = true := fun h => by
    simp [Text.isIdentifierRest_of_isIdentifierStart h] at hc
  rw [tokenAt, if_neg hdigit, if_neg hstart]

/-- Without an equality sign behind it, only a doubled character depends on what follows. -/
theorem symbolAt_eq_none {next : Option Char} (hnext : next ≠ some '=') (hand : c ≠ '&') (hor : c ≠ '|') :
    symbolAt c next = symbolAt c none := by
  unfold symbolAt
  split <;> simp_all

/-- What a token reads from its first character on, if nothing else reads that character. -/
structure Takes (token : Token) (c : Char) (more rest : List Char) : Prop where
  solid : Text.isBlank c = false
  uncommented : ¬ (c = '/' ∧ (more ++ rest).head? = some '/')
  token : tokenAt c (more ++ rest) = some (token, more.length)
  line : '\n' ∉ c :: more

theorem Takes.lexFrom (h : Takes token c more rest) :
    lexFrom loc read (c :: more ++ rest) = lexFrom (loc.past (c :: more)) (read.push ⟨token, loc⟩) rest := by
  rw [List.cons_append, Lexer.lexFrom, if_neg (by simp [h.solid]), if_neg h.uncommented]
  simp only [h.token, List.drop_left, loc.past_of_no_newline h.line, List.length_cons]

theorem takes_word (hc : Text.isIdentifierRest c = true) (hmore : ∀ d ∈ more, Text.isIdentifierRest d = true)
    (htoken : tokenAt c (more ++ rest) = some (token, more.length)) : Takes token c more rest := by
  refine ⟨?_, ?_, htoken, ?_⟩
  · by_contra hblank
    simp [Text.isIdentifierRest_of_isBlank (Bool.of_not_eq_false hblank)] at hc
  · rintro ⟨rfl, -⟩
    exact absurd hc (by decide)
  · intro hm
    rcases List.mem_cons.1 hm with rfl | hm
    · exact absurd hc (by decide)
    · exact absurd (hmore _ hm) (by decide)

theorem takes_identifier (hstart : Text.isIdentifierStart c = true)
    (hmore : ∀ d ∈ more, Text.isIdentifierRest d = true) (hrest : Text.Apart rest) :
    Takes (.ofWord (String.ofList (c :: more))) c more rest := by
  refine takes_word (Text.isIdentifierRest_of_isIdentifierStart hstart) hmore ?_
  rw [tokenAt, if_neg (by simp [Text.isDigit_of_isIdentifierStart hstart]), if_pos hstart,
    hrest.takeWhile_append (fun _ => id) hmore]

theorem takes_integer (hcs : Text.isDigits (c :: more) = true) (hrest : Text.Apart rest) :
    Takes (.integer (Text.digitsValue (c :: more))) c more rest := by
  have hdigits : ∀ d ∈ c :: more, d.isDigit = true := by simpa [Text.isDigits] using hcs
  obtain ⟨hc, hmore⟩ := List.forall_mem_cons.1 hdigits
  refine takes_word (Text.isIdentifierRest_of_isDigit hc)
    (fun d hd => Text.isIdentifierRest_of_isDigit (hmore d hd)) ?_
  rw [tokenAt, if_pos hc, hrest.takeWhile_append (fun _ => Text.isIdentifierRest_of_isDigit) hmore]

theorem takes_symbol (hsolid : ∀ d ∈ c :: more, Text.isBlank d = false)
    (hword : Text.isIdentifierRest c = false) (hslash : more.head? ≠ some '/') (hrest : Text.Apart rest)
    (hsymbol : symbolAt c (more ++ rest).head? = some (token, more.length)) : Takes token c more rest := by
  refine ⟨hsolid c (List.mem_cons_self ..), ?_, ?_, fun hm => absurd (hsolid _ hm) (by decide)⟩
  · rintro ⟨-, hcomment⟩
    rw [List.head?_append, Option.or_eq_some_iff] at hcomment
    rcases hcomment with hcomment | ⟨-, hcomment⟩
    · exact hslash hcomment
    · exact hrest.head?_ne (by decide) hcomment
  · rw [tokenAt_symbol hword, hsymbol]

theorem takes_mark (mark : Mark) (hrest : Text.Apart rest) : Takes (.mark mark) mark.char [] rest := by
  refine takes_symbol ?_ (by cases mark <;> rfl) (by simp) hrest ?_
  · exact List.forall_mem_singleton.2 (by cases mark <;> rfl)
  · rw [List.nil_append, symbolAt_eq_none (hrest.head?_ne (by decide)) (by cases mark <;> decide)
      (by cases mark <;> decide)]
    cases mark <;> rfl

theorem takes_operator (op : BinaryOp) (hrest : Text.Apart rest) :
    ∃ c more, op.symbol.toList = c :: more ∧ Takes (.operator op) c more rest := by
  have hassign : rest.head? ≠ some '=' := hrest.head?_ne (by decide)
  have one : ∀ c, Text.isBlank c = false → Text.isIdentifierRest c = false → c ≠ '&' → c ≠ '|' →
      symbolAt c none = some (.operator op, 0) → Takes (.operator op) c [] rest :=
    fun c hblank hword hand hor hc => takes_symbol (List.forall_mem_singleton.2 hblank) hword (by simp) hrest
      ((symbolAt_eq_none hassign hand hor).trans hc)
  have two : ∀ c d, Text.isBlank c = false → Text.isBlank d = false → Text.isIdentifierRest c = false →
      d ≠ '/' → symbolAt c (some d) = some (.operator op, 1) → Takes (.operator op) c [d] rest :=
    fun c d hc hd hword hslash hsymbol =>
      takes_symbol (List.forall_mem_cons.2 ⟨hc, List.forall_mem_singleton.2 hd⟩) hword
        (by simpa using hslash) hrest hsymbol
  cases op with
  | add | sub | mul | div | mod | lt | gt =>
    exact ⟨_, _, rfl, one _ rfl rfl (by decide) (by decide) rfl⟩
  | ge | le | ne | eq | and | or => exact ⟨_, _, rfl, two _ _ rfl rfl rfl (by decide) rfl⟩

theorem exists_takes (h : token.Spells cs) (hrest : Text.Apart rest) :
    ∃ c more, cs = c :: more ∧ Takes token c more rest := by
  cases h with
  | @identifier name hname hfree =>
    unfold Text.isIdentifier at hname
    split at hname
    · cases hname
    · rename_i c more hchars
      rw [Bool.and_eq_true] at hname
      have htakes := takes_identifier hname.1 (List.all_eq_true.1 hname.2) hrest
      rw [← hchars, String.ofList_toList, Token.ofWord_free hfree] at htakes
      exact ⟨c, more, hchars, htakes⟩
  | @integer cs hcs =>
    cases cs with
    | nil => cases hcs
    | cons c more => exact ⟨c, more, rfl, takes_integer hcs hrest⟩
  | keyword word =>
    obtain ⟨c, more, hchars, hstart, hmore⟩ : ∃ c more, word.spelling.toList = c :: more ∧
        Text.isIdentifierStart c = true ∧ more.all Text.isIdentifierRest = true := by
      cases word <;> exact ⟨_, _, rfl, rfl, rfl⟩
    have htakes := takes_identifier hstart (List.all_eq_true.1 hmore) hrest
    rw [← hchars, String.ofList_toList, Token.ofWord_keyword] at htakes
    exact ⟨c, more, hchars, htakes⟩
  | mark mark => exact ⟨_, _, rfl, takes_mark mark hrest⟩
  | operator op => exact takes_operator op hrest

theorem lexFrom_spelled (h : token.Spells cs) (hrest : Text.Apart rest) :
    lexFrom loc read (cs ++ rest) = lexFrom (loc.past cs) (read.push ⟨token, loc⟩) rest := by
  obtain ⟨c, more, rfl, htakes⟩ := exists_takes h hrest
  exact htakes.lexFrom

/-! ## What is skipped -/

theorem lexFrom_blank (hc : Text.isBlank c = true) :
    lexFrom loc read (c :: cs) = lexFrom (loc.advance c) read cs := by
  rw [lexFrom, if_pos hc]

/-- A comment takes everything in front of the newline. -/
theorem lexFrom_comment {body : List Char} (hbody : '\n' ∉ body) :
    lexFrom loc read ('/' :: '/' :: body ++ '\n' :: rest) =
      lexFrom (loc.past ('/' :: '/' :: body)) read ('\n' :: rest) := by
  have hline : ∀ d ∈ '/' :: body, decide (d ≠ '\n') = true := fun d hd => by
    rcases List.mem_cons.1 hd with rfl | hd
    · rfl
    · simpa using ne_of_mem_of_not_mem hd hbody
  have hskip : ('/' :: body ++ '\n' :: rest).takeWhile (· ≠ '\n') = '/' :: body := by
    rw [List.takeWhile_append_of_pos hline]
    simp
  have hpast : loc.past ('/' :: '/' :: body) = loc.shift (('/' :: body).length + 1) :=
    Loc.past_of_no_newline (by simpa using hbody) loc
  rw [List.cons_append, lexFrom, if_neg (by decide), if_pos ⟨rfl, rfl⟩, hpast]
  simp only [hskip, List.drop_left]

theorem lexFrom_filler (h : Filler cs) :
    lexFrom loc read (cs ++ rest) = lexFrom (loc.past cs) read rest := by
  induction h generalizing loc with
  | nil => rfl
  | blank hc _ ih =>
    rw [List.cons_append, lexFrom_blank hc, ih]
    rfl
  | @comment body cs hbody _ ih =>
    have hcomment : lexFrom loc read ('/' :: '/' :: body ++ '\n' :: (cs ++ rest)) = _ :=
      lexFrom_comment hbody
    rw [lexFrom_blank (by decide), ih] at hcomment
    rw [List.append_assoc, Loc.past_append]
    exact hcomment

/-! ## All tokens -/

/-- A division between a wide blank and a comment. -/
def quotient : List Piece :=
  [⟨.identifier "a", ['a'], ['\u2003'], .identifier (by decide) (fun word => by cases word <;> decide),
      .blank (by decide) .nil, by simp [Text.Apart, Text.isBlank, Text.blankRanges]⟩,
    ⟨.operator .div, ['/'], [' ', '/', '/', '\n', ' '], .operator .div,
      .blank (by decide) (@Filler.comment [] [' '] List.not_mem_nil (.blank (by decide) .nil)),
      by simp [Text.Apart, Text.isBlank, Text.blankRanges]⟩,
    ⟨.integer 7, ['0', '7'], [], @Token.Spells.integer ['0', '7'] (by decide), .nil, by simp [Text.Apart]⟩]

theorem filler_blanks (n : Nat) : Filler (List.replicate n ' ') := by
  induction n with
  | zero => exact .nil
  | succ n ih => exact .blank (by decide) ih

theorem lex_blanks (n : Nat) : lex (String.ofList (List.replicate n ' ')) = .ok ([], Loc.start.shift n) := by
  have hline : '\n' ∉ List.replicate n ' ' := fun hm => absurd (List.eq_of_mem_replicate hm) (by decide)
  have hskipped : lexFrom .start #[] (List.replicate n ' ' ++ []) =
      lexFrom (Loc.start.past (List.replicate n ' ')) #[] [] :=
    lexFrom_filler (filler_blanks n)
  rw [List.append_nil, Loc.past_of_no_newline hline, List.length_replicate, lexFrom] at hskipped
  rw [lex, String.toList_ofList, hskipped]

/-- Behind one blank less than a number has values, the column has gone round. -/
theorem lex_blanks_wraps :
    let blanks := List.replicate 0xFFFFFFFF ' '
    Filler blanks ∧ blanks.length < UInt32.size ∧
    lex (String.ofList blanks) = .ok ([], ⟨1, 0⟩) ∧ ¬ Loc.Behind ⟨1, 0⟩ blanks := by
  have hshift : Loc.start.shift 0xFFFFFFFF = ⟨1, 0⟩ := rfl
  refine ⟨filler_blanks _, ?_, (lex_blanks _).trans (by rw [hshift]), fun h => ?_⟩
  · rw [List.length_replicate]
    decide
  · have hcolumn := h.column
    have hzero : (0 : UInt32).toNat = 0 := rfl
    rw [hzero] at hcolumn
    omega

end Lexer

end CMinusMinus
