import CMinusMinus.Text.Numeral
import Mathlib.Data.List.Induction
import Mathlib.Tactic.Common

/-!
# Numerals are read back

Digits are read as the number whose decimal digits they are, behind any zeros, so a text is read as an integer
exactly if it is a literal of it. The text of an integer is one of its literals, and no identifier is a literal.
-/

namespace CMinusMinus.Text

/-! ## Digits -/

theorem isDigits_toDigits (n : Nat) : isDigits (Nat.toDigits 10 n) = true := by
  unfold isDigits
  rw [Bool.and_eq_true, Bool.not_eq_true', List.isEmpty_eq_false_iff, List.all_eq_true]
  exact ⟨Nat.toDigits_ne_nil, fun c hc => Nat.isDigit_of_mem_toDigits (by decide) (by decide) hc⟩

theorem digitsValue_toDigits (n : Nat) : digitsValue (Nat.toDigits 10 n) = n :=
  Nat.ofDigitChars_ten_toDigits

theorem exists_digitChar {c : Char} (h : c.isDigit = true) : ∃ d < 10, c = d.digitChar := by
  rw [Char.isDigit_iff_toNat] at h
  simp only [Char.reduceToNat] at h
  refine ⟨c.toNat - 48, by omega, ?_⟩
  apply Char.toNat_inj.1
  rw [Nat.toNat_digitChar_of_lt_ten (by omega)]
  omega

theorem digitsValue_concat (cs : List Char) {d : Nat} (hd : d < 10) :
    digitsValue (cs ++ [d.digitChar]) = 10 * digitsValue cs + d := by
  rw [digitsValue, Nat.ofDigitChars_append, Nat.ofDigitChars_cons_digitChar_of_lt_ten hd,
    Nat.ofDigitChars_nil, digitsValue]

theorem isDigits_zeros (zeros n : Nat) : isDigits (List.replicate zeros '0' ++ Nat.toDigits 10 n) = true := by
  have hdigits := isDigits_toDigits n
  unfold isDigits at hdigits ⊢
  simp_all

theorem digitsValue_zeros (zeros n : Nat) :
    digitsValue (List.replicate zeros '0' ++ Nat.toDigits 10 n) = n := by
  rw [digitsValue, Nat.ofDigitChars_append, Nat.ofDigitChars_replicate_zero, Nat.mul_zero]
  exact digitsValue_toDigits n

/-- Digits are those of the number that they denote, behind zeros. -/
theorem exists_zeros {cs : List Char} (h : isDigits cs = true) :
    ∃ zeros, cs = List.replicate zeros '0' ++ Nat.toDigits 10 (digitsValue cs) := by
  induction cs using List.reverseRecOn with
  | nil => cases h
  | append_singleton cs c ih =>
    obtain ⟨hfront, hlast⟩ : cs.all Char.isDigit = true ∧ c.isDigit = true := by simpa [isDigits] using h
    obtain ⟨d, hd, rfl⟩ := exists_digitChar hlast
    have hdigit := Nat.toDigits_of_lt_base (b := 10) hd
    rw [digitsValue_concat cs hd]
    by_cases hcs : cs = []
    · exact ⟨0, by simp [hcs, digitsValue, hdigit]⟩
    · obtain ⟨zeros, hzeros⟩ := ih (by simp [isDigits, hcs, hfront])
      rcases Nat.eq_zero_or_pos (digitsValue cs) with hvalue | hvalue
      · -- In front of the last digit there is nothing but zeros.
        rw [hvalue, Nat.toDigits_zero, ← List.replicate_succ'] at hzeros
        exact ⟨zeros + 1, by rw [hvalue, Nat.mul_zero, Nat.zero_add, hdigit, ← hzeros]⟩
      · exact ⟨zeros, by
          rw [← Nat.toDigits_append_toDigits (by decide) hvalue hd, ← List.append_assoc, ← hzeros, hdigit]⟩

/-! ## Literals -/

/-- The literals of an integer: its decimal digits behind any number of zeros, with a minus sign in front of
those of a negative number; a zero may have a sign too. -/
inductive Literal : Int → List Char → Prop where
  | unsigned (zeros n : Nat) : Literal n (List.replicate zeros '0' ++ Nat.toDigits 10 n)
  | signed (zeros n : Nat) : Literal (-n) ('-' :: (List.replicate zeros '0' ++ Nat.toDigits 10 n))

theorem literal_of_isDigits {cs : List Char} (h : isDigits cs = true) :
    Literal (digitsValue cs) cs ∧ Literal (-(digitsValue cs)) ('-' :: cs) := by
  obtain ⟨zeros, hzeros⟩ := exists_zeros h
  rw [hzeros, digitsValue_zeros]
  exact ⟨.unsigned zeros _, .signed zeros _⟩

theorem readInt?_eq_some_iff {text : String} {value : Int} :
    readInt? text = some value ↔ Literal value text.toList := by
  unfold readInt?
  generalize text.toList = cs
  constructor
  · intro h
    split at h <;> split at h <;> cases h
    · exact (literal_of_isDigits ‹_›).2
    · exact (literal_of_isDigits ‹_›).1
  · intro h
    cases h with
    | unsigned zeros n =>
      split
      · rename_i cs hcs
        have hdigits := isDigits_zeros zeros n
        rw [hcs] at hdigits
        exact absurd hdigits (by simp [isDigits])
      · rw [isDigits_zeros, digitsValue_zeros, if_pos rfl]
    | signed zeros n => simp only [isDigits_zeros, digitsValue_zeros, if_true]

/-- A text is a numeral exactly if it can be read. -/
theorem isNumeral_eq_isSome (text : String) : isNumeral text = (readInt? text).isSome := by
  unfold isNumeral readInt?
  split
  · rename_i cs hcs
    cases isDigits cs <;> rfl
  · cases isDigits text.toList <;> rfl

theorem literal_numeral (value : Int) : Literal value (numeral value).toList := by
  cases value with
  | ofNat n =>
    have htext : (numeral (.ofNat n)).toList = Nat.toDigits 10 n := Nat.toList_repr
    rw [htext]
    exact .unsigned 0 n
  | negSucc n =>
    have htext : (numeral (.negSucc n)).toList = '-' :: Nat.toDigits 10 (n + 1) := by
      simp [numeral, Int.repr, Nat.toList_repr]
    rw [htext]
    exact .signed 0 (n + 1)

theorem readInt?_numeral (value : Int) : readInt? (numeral value) = some value :=
  readInt?_eq_some_iff.2 (literal_numeral value)

theorem readInt?_repr (n : Nat) : readInt? n.repr = some (n : Int) :=
  readInt?_numeral n

theorem isNumeral_numeral (value : Int) : isNumeral (numeral value) = true := by
  rw [isNumeral_eq_isSome, readInt?_numeral]
  rfl

/-! ## Counts and identifiers -/

theorem readCount?_repr {n : Nat} (h : n < countBound) : readCount? n.repr = some n := by
  unfold readCount?
  rw [Nat.toList_repr]
  split
  · rename_i cs hcs
    have hplus : '+' ∈ Nat.toDigits 10 n := by simp [hcs]
    have := Nat.isDigit_of_mem_toDigits (by decide) (by decide) hplus
    exact absurd this (by decide)
  · simp [isDigits_toDigits, digitsValue_toDigits, h]

theorem isDigit_of_isIdentifierStart {c : Char} (h : isIdentifierStart c = true) : c.isDigit = false := by
  simp only [isIdentifierStart, Bool.or_eq_true, beq_iff_eq] at h
  rcases h with h | rfl
  · replace h : (decide (c.val ≥ 'A'.val ∧ c.val ≤ 'Z'.val) ||
        c.val ≥ 'a'.val && c.val ≤ 'z'.val) = true := h
    simp only [Bool.or_eq_true, Bool.and_eq_true, decide_eq_true_eq, ge_iff_le, UInt32.le_iff_toNat_le,
      Char.toNat_val, Char.reduceVal, UInt32.reduceToNat] at h
    rw [Bool.eq_false_iff, Ne, Char.isDigit_iff_toNat]
    simp only [Char.reduceToNat]
    omega
  · rfl

/-- No identifier is a literal. -/
theorem readInt?_of_isIdentifier {text : String} (h : isIdentifier text = true) :
    readInt? text = none := by
  unfold isIdentifier at h
  unfold readInt?
  split at h
  · cases h
  · rename_i c cs hchars
    rw [Bool.and_eq_true] at h
    have hdigit := isDigit_of_isIdentifierStart h.1
    rw [hchars]
    split
    · rename_i heq
      cases heq
      exact absurd h.1 (by decide)
    · simp [isDigits, hdigit]

end CMinusMinus.Text
