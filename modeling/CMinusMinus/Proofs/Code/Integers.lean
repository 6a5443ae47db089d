import CMinusMinus.Optimizer.Folding
import CMinusMinus.Proofs.Code.Spelling
import CMinusMinus.Proofs.Source.Spelling

/-!
# Integers are written and read exactly

The generator of code and the folding pass write an integer as the argument of a `push`. The reader of
programs accepts it as a numeral and not as a name, and the number that is read back is the one that was
written. In source text the same digits are one token.
-/

namespace CMinusMinus.Text

/-- Integers are written and read exactly. The numeral of an integer is what is generated for a literal of the
tree, and what a folding pass writes; it is accepted and read back. A text is accepted if and only if it can
be read, and it is read as the integer of which it is a literal, with any zeros in front and with a sign for
zero too; no text is both a numeral and an identifier. In a source text the numeral of a number that is not
negative is one token with that number. -/
theorem integers_exact :
    (∀ value : Int,
      Expr.code (.int value) [] = [⟨.push, [numeral value]⟩] ∧
      (∀ (f : Folding) (length origin : Nat) (shadow : List Shadow),
        (f.fold length value origin shadow).kept.back? = some ⟨⟨.push, [numeral value]⟩, origin⟩) ∧
      isNumeral (numeral value) = true ∧
      Instruction.validate ⟨.push, [numeral value]⟩ = .ok () ∧
      readInt? (numeral value) = some value) ∧
    (∀ text : String, isNumeral text = true ↔ ∃ value, readInt? text = some value) ∧
    (∀ (text : String) (value : Int), readInt? text = some value ↔ Literal value text.toList) ∧
    (∀ text : String, ¬ (isNumeral text = true ∧ isIdentifier text = true)) ∧
    ∀ n : Nat, Lexer.lex (numeral n) = .ok ([⟨.integer n, .start⟩], .after (numeral n).toList) := by
  have haccepted : ∀ text : String, isNumeral text = true ↔ ∃ value, readInt? text = some value := by
    intro text
    rw [isNumeral_eq_isSome, Option.isSome_iff_exists]
  refine ⟨fun value => ⟨rfl, fun f length origin shadow => ?_, isNumeral_numeral value,
    (writable_pushNumeral value).valid, readInt?_numeral value⟩, haccepted, fun text value => readInt?_eq_some_iff,
    fun text h => ?_, fun n => ?_⟩
  · exact Array.back?_push
  · -- A numeral can be read, and an identifier cannot.
    obtain ⟨value, hvalue⟩ := (haccepted text).1 h.1
    rw [readInt?_of_isIdentifier h.2] at hvalue
    cases hvalue
  · have hlex : Lexer.lexFrom .start #[] ((numeral n).toList ++ []) =
        Lexer.lexFrom (Loc.start.past (numeral n).toList) #[⟨.integer n, .start⟩] [] :=
      Lexer.lexFrom_spelled (Token.spells_numeral n) (by simp [Apart])
    rw [List.append_nil, Lexer.lexFrom, Loc.past_start] at hlex
    exact hlex

end CMinusMinus.Text
