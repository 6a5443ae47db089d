import CMinusMinus.Proofs.Source.Completeness
import CMinusMinus.Proofs.Source.Conditions
import Mathlib

/-!
# How high syntax trees are

A tree grows along every way that the grammar nests: each unit of the nesting budget allows for one place
of every level of operators, a minus and a name with brackets, so what is nested stays below seven times the
budget. A chain of operators of one level takes nothing of the budget, however long it is, and its tree
leans to the left by a level for each operator. So the height of a tree is bounded by the budget and the
longest chain, and not by the budget alone.
-/

namespace CMinusMinus

/-! ## Heights -/

section Heights

/-! The left operand of an operator counts as `left` levels below it: with 1 these are the heights of trees,
with 0 a chain of operators of one level is as high as the highest of its operands. -/

variable (left : Nat)

mutual

/-- How many nodes there are on the longest way down from an expression. -/
def Expr.height (e : Expr) : Nat :=
  match e with
  | .int _ => 1
  | .place _ indices _ => Expr.heightOf indices + 1
  | .call _ args _ => Expr.heightOf args + 1
  | .neg operand => operand.height + 1
  | .binary _ lhs rhs => max (lhs.height + left) (rhs.height + 1)

/-- The greatest height of expressions. -/
def Expr.heightOf (es : List Expr) : Nat :=
  match es with
  | [] => 0
  | e :: es => max e.height (Expr.heightOf es)

end

def Assign.height (a : Assign) : Nat :=
  max (Expr.heightOf left a.target.indices) (a.value.height left)

mutual

/-- How many nodes there are on the longest way down from a statement. -/
def Stmt.height (stmt : Stmt) : Nat :=
  match stmt with
  | .print value | .ret value | .array _ value => value.height left + 1
  | .assign a => a.height left + 1
  | .call c => Expr.heightOf left c.args + 1
  | .whileLoop condition body => max (condition.height left) (Stmt.heightOf body) + 1
  | .forLoop init condition step body =>
    max (max (init.height left) (condition.height left)) (max (step.height left) (Stmt.heightOf body)) + 1
  | .branch condition yes no =>
    max (condition.height left) (max (Stmt.heightOf yes) (Stmt.heightOption no)) + 1
  | .block body => Stmt.heightOf body + 1

/-- The greatest height of statements. -/
def Stmt.heightOf (body : List Stmt) : Nat :=
  match body with
  | [] => 0
  | stmt :: body => max stmt.height (Stmt.heightOf body)

def Stmt.heightOption (no : Option (List Stmt)) : Nat :=
  match no with
  | none => 0
  | some body => Stmt.heightOf body

end

def Function.height (f : Function) : Nat :=
  Stmt.heightOf left f.body + 1

/-- How many nodes there are on the longest way down from the root. -/
def Tree.height (tree : Tree) : Nat :=
  (tree.functions.map (Function.height left)).foldr max 0 + 1

end Heights

/-- How many operators lie on the way from an expression down along left operands. -/
def Expr.chain (e : Expr) : Nat :=
  match e with
  | .binary _ lhs _ => lhs.chain + 1
  | _ => 0

/-! ## The budget -/

namespace Grammar

mutual

theorem DerivesExpr.height_le : ∀ {d ts e}, DerivesExpr d ts e → e.height 0 ≤ 7 * d
  | _, _, _, .levels h => h.height_le

theorem DerivesLevel.height_le : ∀ {levels d ts e}, DerivesLevel levels d ts e →
    e.height 0 ≤ 7 * d + 1 + levels.length
  | _, _, _, _, .unary h => h.height_le
  | _, _, _, _, .operand h => Nat.le_succ_of_le h.height_le
  | _, _, _, _, .binary hl _ hr => Nat.max_le.2 ⟨hl.height_le, Nat.succ_le_succ hr.height_le⟩

theorem DerivesUnary.height_le : ∀ {d ts e}, DerivesUnary d ts e → e.height 0 ≤ 7 * d + 1
  | _, _, _, .neg h => by
    have := h.height_le
    rw [Expr.height]
    omega
  | _, _, _, .primary h => h.height_le

theorem DerivesPrimary.height_le : ∀ {d ts e}, DerivesPrimary d ts e → e.height 0 ≤ 7 * d + 1
  | _, _, _, .int => Nat.le_add_left ..
  | _, _, _, .call h => Nat.succ_le_succ h.height_le
  | _, _, _, .place h => Nat.succ_le_succ h.height_le
  | _, _, _, .parenthesized h => Nat.le_succ_of_le h.height_le

theorem DerivesPlace.height_le : ∀ {d ts p}, DerivesPlace d ts p → Expr.heightOf 0 p.indices ≤ 7 * d
  | _, _, _, .indexed h => h.height_le

theorem DerivesIndices.height_le : ∀ {d ts es}, DerivesIndices d ts es → Expr.heightOf 0 es ≤ 7 * d
  | _, _, _, .nil => Nat.zero_le _
  | _, _, _, .cons hindex h => Nat.max_le.2 ⟨hindex.height_le, h.height_le⟩

theorem DerivesCall.height_le : ∀ {d ts c}, DerivesCall d ts c → Expr.heightOf 0 c.args ≤ 7 * d
  | _, _, _, .empty => Nat.zero_le _
  | _, _, _, .args h => h.height_le

theorem DerivesArgs.height_le : ∀ {d ts args}, DerivesArgs d ts args → Expr.heightOf 0 args ≤ 7 * d
  | _, _, _, .last harg => Nat.max_le.2 ⟨harg.height_le, Nat.zero_le _⟩
  | _, _, _, .cons harg h => Nat.max_le.2 ⟨harg.height_le, h.height_le⟩

end

theorem DerivesAssign.height_le {d : Nat} {ts : List Lexeme} {a : Assign} (h : DerivesAssign d ts a) :
    a.height 0 ≤ 7 * d := by
  cases h with
  | assign htarget hvalue => exact Nat.max_le.2 ⟨htarget.height_le, hvalue.height_le⟩

mutual

theorem DerivesStatement.height_le : ∀ {d ts stmt}, DerivesStatement d ts stmt → stmt.height 0 ≤ 7 * d + 1
  | _, _, _, .print h | _, _, _, .ret h | _, _, _, .array h => Nat.succ_le_succ h.height_le
  | _, _, _, .conditional h => h.height_le
  | _, _, _, .whileLoop he hb => by
    have := he.height_le
    have := hb.height_le
    rw [Stmt.height]
    omega
  | _, _, _, .forLoop hinit he hstep hb => by
    have := hinit.height_le
    have := he.height_le
    have := hstep.height_le
    have := hb.height_le
    rw [Stmt.height]
    omega
  | _, _, _, .assign h => Nat.succ_le_succ h.height_le
  | _, _, _, .call h => Nat.succ_le_succ h.height_le
  | _, _, _, .block h => by
    have := h.height_le
    rw [Stmt.height]
    omega

theorem DerivesConditional.height_le : ∀ {d ts stmt}, DerivesConditional d ts stmt →
    stmt.height 0 ≤ 7 * d + 1
  | _, _, _, .noElse he hyes => by
    have := he.height_le
    have := hyes.height_le
    rw [Stmt.height, Stmt.heightOption]
    omega
  | _, _, _, .elseBlock he hyes hno => by
    have := he.height_le
    have := hyes.height_le
    have := hno.height_le
    rw [Stmt.height, Stmt.heightOption]
    omega
  | _, _, _, .elseIf he hyes h => by
    have := he.height_le
    have := hyes.height_le
    have := h.height_le
    rw [Stmt.height, Stmt.heightOption, Stmt.heightOf, Stmt.heightOf]
    omega

/-- A block takes a unit of the budget, of which a statement needs only the first part. -/
theorem DerivesBlock.height_le : ∀ {d ts body}, DerivesBlock d ts body → Stmt.heightOf 0 body + 6 ≤ 7 * d
  | _, _, _, .braces h => Nat.add_le_add_right h.height_le 6

theorem DerivesStatements.height_le : ∀ {d ts body}, DerivesStatements d ts body →
    Stmt.heightOf 0 body ≤ 7 * d + 1
  | _, _, _, .nil => Nat.zero_le _
  | _, _, _, .cons hs h => Nat.max_le.2 ⟨hs.height_le, h.height_le⟩

end

theorem DerivesFunction.height_le {d : Nat} {ts : List Lexeme} {f : Function}
    (h : DerivesFunction d ts f) : f.height 0 + 5 ≤ 7 * d := by
  cases h with
  | empty hb | params _ hb => exact hb.height_le

theorem DerivesFunctions.height_le {d : Nat} {ts : List Lexeme} {fs : List Function}
    (h : DerivesFunctions d ts fs) : (fs.map (Function.height 0)).foldr max 0 ≤ 7 * d - 5 := by
  induction h with
  | nil => exact Nat.zero_le _
  | cons hf _ ih => exact Nat.max_le.2 ⟨Nat.le_sub_of_add_le hf.height_le, ih⟩

end Grammar

/-! ## Chains -/

section Chains

variable {n : Nat}

/-- No chain of operators starts at an expression that has more than `n` of them. -/
abbrev Expr.chainAtMost (n : Nat) (e : Expr) : Bool :=
  e.chain ≤ n

theorem Expr.chain_le {e : Expr} (h : e.all (Expr.chainAtMost n) = true) : e.chain ≤ n := by
  cases e <;> simp_all [Expr.all]

theorem max_le_mul {a b a' b' : Nat} (ha : a ≤ (n + 1) * a') (hb : b ≤ (n + 1) * b') :
    max a b ≤ (n + 1) * max a' b' :=
  Nat.max_le.2 ⟨ha.trans (Nat.mul_le_mul_left _ (Nat.le_max_left ..)),
    hb.trans (Nat.mul_le_mul_left _ (Nat.le_max_right ..))⟩

theorem succ_le_mul {a a' : Nat} (ha : a ≤ (n + 1) * a') : a + 1 ≤ (n + 1) * (a' + 1) := by
  rw [Nat.mul_add_one]
  omega

mutual

/-- Down a chain the height falls by one with each operator, and a level of its own is worth as many units
as the longest chain can have. -/
theorem Expr.height_add_le {e : Expr} (h : e.all (Expr.chainAtMost n) = true) :
    e.height 1 + n ≤ e.chain + (n + 1) * e.height 0 := by
  match e with
  | .int value =>
    simp only [Expr.height]
    omega
  | .place name indices loc =>
    simp only [Expr.all, Bool.and_eq_true] at h
    have := Expr.heightOf_le h.2
    simp only [Expr.height, Nat.mul_add_one]
    omega
  | .call name args loc =>
    simp only [Expr.all, Bool.and_eq_true] at h
    have := Expr.heightOf_le h.2
    simp only [Expr.height, Nat.mul_add_one]
    omega
  | .neg operand =>
    simp only [Expr.all, Bool.and_eq_true] at h
    have := Expr.height_add_le h.2
    have := Expr.chain_le h.2
    simp only [Expr.height, Nat.mul_add_one]
    omega
  | .binary op lhs rhs =>
    simp only [Expr.all, Bool.and_eq_true] at h
    have := Expr.height_add_le h.2.1
    have := Expr.height_add_le h.2.2
    have := Expr.chain_le h.2.2
    simp only [Expr.height, Expr.chain, Nat.add_zero, ← Nat.mul_max_mul_left, Nat.mul_add_one]
    omega

theorem Expr.heightOf_le {es : List Expr} (h : Expr.allOf (Expr.chainAtMost n) es = true) :
    Expr.heightOf 1 es ≤ (n + 1) * Expr.heightOf 0 es := by
  match es with
  | [] => exact Nat.zero_le _
  | e :: es =>
    simp only [Expr.allOf, Bool.and_eq_true] at h
    have := Expr.height_add_le h.1
    have := Expr.chain_le h.1
    exact max_le_mul (by omega) (Expr.heightOf_le h.2)

end

theorem Expr.height_le {e : Expr} (h : e.all (Expr.chainAtMost n) = true) :
    e.height 1 ≤ (n + 1) * e.height 0 := by
  have := Expr.height_add_le h
  have := Expr.chain_le h
  omega

theorem Assign.height_le {a : Assign} (h : a.all (Expr.chainAtMost n) = true) :
    a.height 1 ≤ (n + 1) * a.height 0 := by
  simp only [Assign.all, Bool.and_eq_true] at h
  exact max_le_mul (Expr.heightOf_le h.2) (Expr.height_le h.1)

mutual

theorem Stmt.height_le {Q : Call → Bool} {stmt : Stmt} (h : stmt.all (Expr.chainAtMost n) Q = true) :
    stmt.height 1 ≤ (n + 1) * stmt.height 0 := by
  match stmt with
  | .print value | .ret value | .array name value =>
    simp only [Stmt.all] at h
    exact succ_le_mul (Expr.height_le h)
  | .assign a =>
    simp only [Stmt.all] at h
    exact succ_le_mul (Assign.height_le h)
  | .call c =>
    simp only [Stmt.all, Bool.and_eq_true] at h
    exact succ_le_mul (Expr.heightOf_le h.2)
  | .whileLoop condition body =>
    simp only [Stmt.all, Bool.and_eq_true] at h
    exact succ_le_mul (max_le_mul (Expr.height_le h.1) (Stmt.heightOf_le h.2))
  | .forLoop init condition step body =>
    simp only [Stmt.all, Bool.and_eq_true] at h
    exact succ_le_mul (max_le_mul (max_le_mul (Assign.height_le h.1) (Expr.height_le h.2.1))
      (max_le_mul (Assign.height_le h.2.2.1) (Stmt.heightOf_le h.2.2.2)))
  | .branch condition yes no =>
    simp only [Stmt.all, Bool.and_eq_true] at h
    exact succ_le_mul (max_le_mul (Expr.height_le h.1)
      (max_le_mul (Stmt.heightOf_le h.2.1) (Stmt.heightOption_le h.2.2)))
  | .block body =>
    simp only [Stmt.all] at h
    exact succ_le_mul (Stmt.heightOf_le h)

theorem Stmt.heightOf_le {Q : Call → Bool} {body : List Stmt}
    (h : Stmt.allOf (Expr.chainAtMost n) Q body = true) :
    Stmt.heightOf 1 body ≤ (n + 1) * Stmt.heightOf 0 body := by
  match body with
  | [] => exact Nat.zero_le _
  | stmt :: body =>
    simp only [Stmt.allOf, Bool.and_eq_true] at h
    exact max_le_mul (Stmt.height_le h.1) (Stmt.heightOf_le h.2)

theorem Stmt.heightOption_le {Q : Call → Bool} {no : Option (List Stmt)}
    (h : Stmt.allOption (Expr.chainAtMost n) Q no = true) :
    Stmt.heightOption 1 no ≤ (n + 1) * Stmt.heightOption 0 no := by
  match no with
  | none => exact Nat.zero_le _
  | some body =>
    simp only [Stmt.allOption] at h
    exact Stmt.heightOf_le h

end

theorem Tree.height_le {Q : Call → Bool} {tree : Tree} (h : tree.all (Expr.chainAtMost n) Q = true) :
    tree.height 1 ≤ (n + 1) * tree.height 0 := by
  obtain ⟨functions⟩ := tree
  refine succ_le_mul ?_
  induction functions with
  | nil => exact Nat.zero_le _
  | cons f functions ih =>
    simp only [Tree.all, List.all_cons, Bool.and_eq_true] at h
    exact max_le_mul (succ_le_mul (Stmt.heightOf_le h.1)) (ih h.2)

end Chains

/-! ## Texts -/

/-- The height of the tree of a text that is accepted is bounded if chains of operators are counted as one
level, and it is at most this bound for each operator of the longest chain, and once more. -/
theorem parse_height {source : String} {tree : Tree} (h : parse source = .ok tree) :
    tree.height 0 ≤ 7 * Parser.maxNesting ∧
    ∀ n, tree.all (Expr.chainAtMost n) (fun _ => true) = true →
      tree.height 1 ≤ (n + 1) * (7 * Parser.maxNesting) := by
  obtain ⟨tokens, stop, -, hprogram⟩ := parse_eq_ok.1 h
  have hderives := Parser.program_sound hprogram
  have hbound : tree.height 0 ≤ 7 * Parser.maxNesting := by
    have := Grammar.DerivesFunctions.height_le hderives
    have : 5 ≤ 7 * Parser.maxNesting := by decide
    unfold Tree.height
    omega
  exact ⟨hbound, fun n hchain => (Tree.height_le hchain).trans (Nat.mul_le_mul_left _ hbound)⟩

set_option maxRecDepth 4000 in
/-- The only chain of the tree has one operator. -/
theorem parse_height_sum :
    let tree : Tree := ⟨[⟨"main", [], [.print (.binary .add (.int 1) (.int 2))], ⟨1, 1⟩⟩]⟩
    parse "main() { print 1 + 2; }" = .ok tree ∧ tree.height 0 ≤ 7 * Parser.maxNesting ∧
      tree.height 1 ≤ (1 + 1) * (7 * Parser.maxNesting) := by
  intro tree
  have hparse : parse "main() { print 1 + 2; }" = .ok tree := by cbv
  obtain ⟨hbudget, hchains⟩ := parse_height hparse
  exact ⟨hparse, hbudget, hchains 1 (by decide)⟩

/-! ## Sums -/

/-- A number of additions of 1, and the end of the statement and of the function that they stand in. -/
def additions (n : Nat) : List Char :=
  match n with
  | 0 => [';', '\x7d']
  | n + 1 => '+' :: '1' :: additions n

/-- A program that prints the sum of 1 and a number of ones. -/
def sumOfOnesText (n : Nat) : String :=
  String.ofList ("main()\x7bprint 1".toList ++ additions n)

/-- The sum of 1 and a number of ones. -/
def sumOfOnes (n : Nat) : Expr :=
  match n with
  | 0 => .int 1
  | n + 1 => .binary .add (sumOfOnes n) (.int 1)

theorem height_sumOfOnes (n : Nat) : (sumOfOnes n).height 1 = n + 1 := by
  induction n with
  | zero => rfl
  | succ n ih =>
    rw [sumOfOnes, Expr.height, ih]
    exact Nat.max_eq_left (Nat.succ_le_succ (Nat.succ_le_succ (Nat.zero_le n)))

namespace Lexer

theorem lexFrom_token {loc : Loc} {read : Array Lexeme} {c : Char} {cs : List Char} {token : Token}
    {more : Nat} (hblank : Text.isBlank c = false) (hc : c ≠ '/')
    (htoken : tokenAt c cs = some (token, more)) : lexFrom loc read (c :: cs) =
      lexFrom (loc.shift (more + 1)) (read.push ⟨token, loc⟩) (cs.drop more) := by
  rw [lexFrom]
  simp [hblank, hc, htoken]

theorem tokenAt_one (n : Nat) : tokenAt '1' (additions n) = some (.integer 1, 0) := by
  cases n <;> rfl

open Grammar in
/-- Each addition is read as an operator and an operand of the chain. -/
theorem lexFrom_additions (n : Nat) (loc : Loc) (read : Array Lexeme) : ∃ us l r stop,
    lexFrom loc read (additions n) =
      .ok (read.toList ++ us ++ [⟨.mark .semicolon, l⟩, ⟨.mark .closeBrace, r⟩], stop) ∧
    ∀ {d ts k}, DerivesLevel (precedence.drop 4) d ts (sumOfOnes k) →
      DerivesLevel (precedence.drop 4) d (ts ++ us) (sumOfOnes (k + n)) := by
  induction n generalizing loc read with
  | zero =>
    refine ⟨[], loc, loc.shift 1, (loc.shift 1).shift 1, ?_, fun h => by simpa using h⟩
    rw [additions, lexFrom_token rfl (by decide) rfl, List.drop_zero, lexFrom_token rfl (by decide) rfl,
      List.drop_zero, lexFrom]
    simp
  | succ n ih =>
    obtain ⟨us, l, r, stop, hlex, hderives⟩ :=
      ih ((loc.shift 1).shift 1) ((read.push ⟨.operator .add, loc⟩).push ⟨.integer 1, loc.shift 1⟩)
    refine ⟨⟨.operator .add, loc⟩ :: ⟨.integer 1, loc.shift 1⟩ :: us, l, r, stop, ?_, fun {d ts k} h => ?_⟩
    · rw [additions, lexFrom_token rfl (by decide) rfl, List.drop_zero,
        lexFrom_token rfl (by decide) (tokenAt_one n), List.drop_zero, hlex]
      simp
    · have hone : DerivesLevel (precedence.drop 5) d [⟨.integer 1, loc.shift 1⟩] (.int 1) :=
        .operand (.unary (.primary .int))
      have hnext : DerivesLevel (precedence.drop 4) d
          (ts ++ [⟨.operator .add, loc⟩, ⟨.integer 1, loc.shift 1⟩]) (sumOfOnes (k + 1)) :=
        .binary h (by decide) hone
      have := hderives hnext
      rw [Nat.add_right_comm, Nat.add_assoc] at this
      simpa using this

/-- The tokens in front of the additions. -/
def beforeAdditions : Array Lexeme :=
  #[⟨.identifier "main", ⟨1, 1⟩⟩, ⟨.mark .openParen, ⟨1, 5⟩⟩, ⟨.mark .closeParen, ⟨1, 6⟩⟩,
    ⟨.mark .openBrace, ⟨1, 7⟩⟩, ⟨.keyword .print, ⟨1, 8⟩⟩, ⟨.integer 1, ⟨1, 14⟩⟩]

theorem lex_sumOfOnes (n : Nat) : lex (sumOfOnesText n) = lexFrom ⟨1, 15⟩ beforeAdditions (additions n) := by
  unfold lex sumOfOnesText
  rw [String.toList_ofList]
  cases n <;> cbv

end Lexer

/-- Sums of any length are accepted. -/
theorem parse_sumOfOnes (n : Nat) :
    ∃ loc, parse (sumOfOnesText n) = .ok ⟨[⟨"main", [], [.print (sumOfOnes n)], loc⟩]⟩ := by
  obtain ⟨us, l, r, stop, hlex, hderives⟩ := Lexer.lexFrom_additions n ⟨1, 15⟩ Lexer.beforeAdditions
  refine ⟨⟨1, 1⟩, parse_eq_ok.2 ⟨_, stop, (Lexer.lex_sumOfOnes n).trans hlex, Parser.program_complete ?_⟩⟩
  have hone : Grammar.DerivesLevel (Grammar.precedence.drop 4) 198 [⟨.integer 1, ⟨1, 14⟩⟩] (sumOfOnes 0) :=
    .operand (.operand (.unary (.primary .int)))
  have hsum := hderives hone
  rw [Nat.zero_add] at hsum
  have hprint := Grammar.DerivesStatement.print (l := ⟨1, 8⟩) (r := l)
    (.levels (.operand (.operand (.operand (.operand hsum)))))
  have hmain : Grammar.DerivesFunction 200 _ ⟨"main", [], [.print (sumOfOnes n)], ⟨1, 1⟩⟩ :=
    .empty (l := ⟨1, 5⟩) (r := ⟨1, 6⟩) (.braces (l := ⟨1, 7⟩) (r := r) (.cons hprint .nil))
  simpa [Grammar.DerivesProgram, Parser.maxNesting, Lexer.beforeAdditions] using
    Grammar.DerivesFunctions.cons hmain .nil

/-- The budget alone does not bound the heights of the trees of the texts that are accepted. -/
theorem height_unbounded :
    ¬ ∃ bound, ∀ source tree, parse source = .ok tree → tree.height 1 ≤ bound := by
  rintro ⟨bound, hbound⟩
  obtain ⟨loc, hparse⟩ := parse_sumOfOnes bound
  have := hbound _ _ hparse
  simp only [Tree.height, Function.height, Stmt.heightOf, Stmt.height, height_sumOfOnes, List.map_cons, List.map_nil,
    List.foldr_cons, List.foldr_nil] at this
  omega

end CMinusMinus
