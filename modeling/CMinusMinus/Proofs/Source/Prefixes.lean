import CMinusMinus.Proofs.Source.Prompt

/-!
# Where parsing stops

The parsers of the grammar are prompt, each for the language of its symbol. So the parser of programs refuses
a token only if the tokens in front of it begin a program and no program has that token there: were there one,
the parser with room enough for it would accept it, and refuse it where it refused the token before.
-/

namespace CMinusMinus.Parser

open Grammar

/-! ## Expressions -/

section Expressions

variable {c n rounds : Nat} {nested nested' : Parser Expr}

theorem indices_of_end (left : Nat) (read : Array Expr) :
    Becomes none (indices nested left read) (pure read.toList) := by
  intro us d hus
  obtain rfl : us = [] := by simpa using hus
  cases left <;> rfl

/-- A place or a call: the token behind the name decides. -/
def nameOrCall (rounds : Nat) (nested : Parser Expr) : Parser Expr := do
  let (name, loc) ← identifier
  if ← accept (.mark .openParen) then
    let args ← listed rounds nested
    return .call name args loc
  else
    let indices ← indices nested rounds #[]
    return .place name indices loc

theorem primary_of_identifier {name : String} :
    Becomes (some (.identifier name)) (primary rounds nested) (nameOrCall rounds nested) := by
  intro us d hus
  obtain ⟨l, us, rfl⟩ := exists_cons_of_head hus
  by_cases hnext : us.head?.map Lexeme.token = some (.mark .openParen)
  · obtain ⟨l', us, rfl⟩ := exists_cons_of_head hnext
    have hcall : primary rounds nested ⟨⟨.identifier name, l⟩ :: ⟨.mark .openParen, l'⟩ :: us, d⟩ =
        (do
          let c ← call rounds nested
          return Expr.call c.name c.args c.loc) ⟨⟨.identifier name, l⟩ :: ⟨.mark .openParen, l'⟩ :: us, d⟩ :=
      bind_eq ahead_eq rfl
    rw [hcall]
    simp only [call, parenthesized_eq, bind_assoc, pure_bind]
    exact (bind_eq identifier_eq (bind_eq mark_eq rfl)).trans
      (bind_eq identifier_eq (bind_eq accept_eq rfl)).symm
  · have hother : ∀ next ∈ us.head?, next.token ≠ .mark .openParen := fun next hmem heq =>
      hnext (by rw [Option.mem_def.1 hmem, Option.map_some, heq])
    rw [primary_eq_place hother]
    simp only [place, bind_assoc, pure_bind]
    exact (bind_eq identifier_eq rfl).trans (bind_eq identifier_eq (bind_eq (accept_ne hother) rfl)).symm

theorem primary_of_integer {value : Nat} :
    Becomes (some (.integer value)) (primary rounds nested)
      (do token (.integer value); return Expr.int value) := by
  intro us d hus
  obtain ⟨l, us, rfl⟩ := exists_cons_of_head hus
  symm
  exact bind_eq token_eq rfl

theorem primary_of_openParen :
    Becomes (some (.mark .openParen)) (primary rounds nested) (condition nested) := by
  intro us d hus
  obtain ⟨l, us, rfl⟩ := exists_cons_of_head hus
  symm
  exact bind_eq mark_eq rfl

/-- The first tokens of an operand without a minus. -/
def startsPrimary : Option Token → Bool
  | some (.integer _) | some (.identifier _) | some (.mark .openParen) => true
  | _ => false

theorem primary_of_other {first : Option Token} (h : startsPrimary first = false) :
    Becomes first (primary rounds nested) (refuse .expression) := by
  rintro us d rfl
  match us with
  | [] | ⟨.keyword _, _⟩ :: _ | ⟨.operator _, _⟩ :: _ => rfl
  | ⟨.integer _, _⟩ :: _ | ⟨.identifier _, _⟩ :: _ => cases h
  | ⟨.mark m, _⟩ :: _ => cases m <;> first | rfl | cases h

section Nested

variable (hnested : Prompt c n (language DerivesExpr) nested nested')
include hnested

theorem prompt_indices {left m : Nat} (hm : m ≤ n) (hleft : m ≤ left) (read read' : Array Expr) :
    Prompt c m (language DerivesIndices) (indices nested left read) (indices nested' (c + left) read') := by
  induction left generalizing m read read' with
  | zero =>
    obtain rfl := Nat.le_zero.1 hleft
    exact prompt_noTokens noIndex_le (indices_of_end _ _) (indices_of_end _ _)
  | succ left ih =>
    rw [← Nat.add_assoc, indices, indices]
    have hindex : ∀ k, k + 1 ≤ m →
        Prompt c k (language DerivesExpr * (word (.mark .closeBracket) * language DerivesIndices))
          (do
            let index ← nested
            mark .closeBracket
            indices nested left (read.push index))
          (do
            let index ← nested'
            mark .closeBracket
            indices nested' (c + left) (read'.push index)) := fun k hk =>
      (hnested.of_le (by omega)).andThen (by simp) fun _ _ =>
        .afterToken (by simp) fun l hl => ih (by omega) (by omega) _ _
    exact (prompt_accept _ hindex (prompt_pure _ _)).mono (add_le index_le noIndex_le)

theorem prompt_place (hrounds : n ≤ rounds) :
    Prompt c n (language DerivesPlace) (place rounds nested) (place (c + rounds) nested') :=
  (prompt_identifier.andThen filled_indices fun ⟨_, _⟩ ⟨_, _⟩ =>
    (prompt_indices hnested le_rfl hrounds #[] #[]).map).mono indexed_le

theorem prompt_nameOrCall (hrounds : n ≤ rounds) :
    Prompt c n (language DerivesPrimary) (nameOrCall rounds nested) (nameOrCall (c + rounds) nested') := by
  refine (prompt_identifier.andThen (by simp) fun ⟨name, l⟩ ⟨name', l'⟩ => prompt_accept (.mark .openParen)
    (fun m hm => (prompt_listed hnested filled_args lastArg_le moreArgs_le (by omega) (by omega)).map)
    (prompt_indices hnested le_rfl hrounds #[] #[]).map).mono ?_
  rw [mul_add]
  exact add_le (args_le.trans call_le) (indexed_le.trans place_le)

end Nested

theorem prompt_condition (hnested : Prompt c n (language DerivesExpr) nested nested') :
    Prompt c n conditions (condition nested) (condition nested') :=
  .afterToken (by simp) fun m hm => (hnested.of_le (by omega)).beforeToken (by simp)

theorem prompt_primary (hnested : Prompt c n (language DerivesExpr) nested nested') (hrounds : n ≤ rounds) :
    Prompt c n (language DerivesPrimary) (primary rounds nested) (primary (c + rounds) nested') := by
  intro tokens hn
  cases hstart : startsPrimary (tokens.head?.map Lexeme.token) with
  | false =>
    exact (prompt_refuse filled_primary .expression tokens hn).congr rfl (primary_of_other hstart)
      (primary_of_other hstart)
  | true =>
    unfold startsPrimary at hstart
    split at hstart
    · rename_i value hnext
      have hint : Prompt c n (language DerivesPrimary)
          (do token (.integer value); return Expr.int value)
          (do token (.integer value); return Expr.int value) := by
        refine (prompt_token (filled_integer value)).map.mono ?_
        rintro _ rfl
        exact literals_le ⟨value, rfl⟩
      exact (hint tokens hn).congr hnext primary_of_integer primary_of_integer
    · rename_i name hnext
      exact (prompt_nameOrCall hnested hrounds tokens hn).congr hnext primary_of_identifier
        primary_of_identifier
    · rename_i hnext
      exact ((prompt_condition hnested tokens hn).mono conditions_le).congr hnext primary_of_openParen
        primary_of_openParen
    · cases hstart

theorem prompt_unary {negated negated' : Parser Expr}
    (hnested : Prompt c n (language DerivesExpr) nested nested')
    (hnegated : Prompt c n (language DerivesUnary) negated negated') (hrounds : n ≤ rounds) :
    Prompt c n (language DerivesUnary) (unary rounds nested negated)
      (unary (c + rounds) nested' negated') :=
  (prompt_accept _ (fun _ hm => (hnegated.of_le (by omega)).map) (prompt_primary hnested hrounds)).mono
    (add_le neg_le primary_le)

/-! ### Levels of operators -/

section Levels

variable {ops : List BinaryOp} {levels : List (List BinaryOp)} {operand operand' : Parser Expr}

/-- What prolongs every expression of a level. -/
def prolongations (ops : List BinaryOp) (levels : List (List BinaryOp)) : Language Token :=
  {us | ∀ ts ∈ language (DerivesLevel (ops :: levels)), ts ++ us ∈ language (DerivesLevel (ops :: levels))}

theorem one_le_prolongations : 1 ≤ prolongations ops levels := by
  rintro _ rfl ts hts
  rwa [List.append_nil]

theorem operators_le_prolongations :
    operators ops * (language (DerivesLevel levels) * prolongations ops levels) ≤
      prolongations ops levels := by
  rintro _ ⟨op, hop, _, ⟨us, hus, vs, hvs, rfl⟩, rfl⟩ ts hts
  have hlonger := hvs (ts ++ (op ++ us)) (binary_le ⟨ts, hts, _, ⟨op, hop, us, hus, rfl⟩, rfl⟩)
  simpa only [List.append_assoc] using hlonger

theorem chain_of_operator {left : Nat} {op : BinaryOp} {lhs : Expr} (hop : op ∈ ops) :
    Becomes (some (.operator op)) (chain ops operand (left + 1) lhs) (do
      token (.operator op)
      let rhs ← operand
      chain ops operand left (.binary op lhs rhs)) := by
  intro us d hus
  obtain ⟨l, us, rfl⟩ := exists_cons_of_head hus
  refine (bind_eq ahead_eq ?_).trans (bind_eq token_eq rfl).symm
  simp only [if_pos hop]
  exact bind_eq skip_eq rfl

theorem chain_of_other {first : Option Token} (left : Nat) (lhs : Expr)
    (h : ∀ op ∈ ops, first ≠ some (.operator op)) :
    Becomes first (chain ops operand left lhs) (pure lhs) := by
  rintro us d rfl
  cases left with
  | zero => rfl
  | succ left =>
    refine bind_eq ahead_eq ?_
    split
    · rename_i op l us
      rw [if_neg fun hop => h op hop rfl]
    · rfl

theorem prompt_chain (hoperand : Prompt c n (language (DerivesLevel levels)) operand operand')
    {left m : Nat} (hm : m ≤ n) (hleft : m ≤ left) (lhs lhs' : Expr) :
    Prompt c m (prolongations ops levels) (chain ops operand left lhs)
      (chain ops operand' (c + left) lhs') := by
  induction left generalizing m lhs lhs' with
  | zero =>
    obtain rfl := Nat.le_zero.1 hleft
    exact prompt_noTokens one_le_prolongations (chain_of_other _ _ (by simp)) (chain_of_other _ _ (by simp))
  | succ left ih =>
    intro tokens hn
    by_cases hnext : ∃ op ∈ ops, tokens.head?.map Lexeme.token = some (.operator op)
    · obtain ⟨op, hop, hnext⟩ := hnext
      have hmore : Prompt c m
          (word (.operator op) * (language (DerivesLevel levels) * prolongations ops levels))
          (do
            token (.operator op)
            let rhs ← operand
            chain ops operand left (.binary op lhs rhs))
          (do
            token (.operator op)
            let rhs ← operand'
            chain ops operand' (c + left) (.binary op lhs' rhs)) :=
        have hfilled : Filled (prolongations ops levels) := filled_one.le one_le_prolongations
        .afterToken (by simp [hfilled]) fun k hk => (hoperand.of_le (by omega)).andThen hfilled
          fun _ _ => ih (by omega) (by omega) _ _
      have hword : word (.operator op) ≤ operators ops := by
        rintro _ rfl
        exact ⟨op, hop, rfl⟩
      refine ((hmore tokens hn).mono ?_).congr hnext (chain_of_operator hop) (chain_of_operator hop)
      exact (mul_le_mul_left hword _).trans operators_le_prolongations
    · push Not at hnext
      exact ((prompt_pure lhs lhs' tokens hn).mono one_le_prolongations).congr rfl
        (chain_of_other _ _ hnext) (chain_of_other _ _ hnext)

theorem prompt_level (hoperand : Prompt c n (language (DerivesLevel levels)) operand operand')
    (hrounds : n ≤ rounds) :
    Prompt c n (language (DerivesLevel (ops :: levels))) (level rounds ops operand)
      (level (c + rounds) ops operand') := by
  refine (hoperand.andThen (filled_one.le one_le_prolongations) fun lhs lhs' =>
    prompt_chain hoperand le_rfl hrounds lhs lhs').mono ?_
  rintro _ ⟨ts, hts, us, hus, rfl⟩
  exact hus ts (operand_le hts)

theorem prompt_levels (hoperand : Prompt c n (language DerivesUnary) operand operand')
    (hrounds : n ≤ rounds) (levels : List (List BinaryOp)) :
    Prompt c n (language (DerivesLevel levels)) (levels.foldr (level rounds) operand)
      (levels.foldr (level (c + rounds)) operand') := by
  induction levels with
  | nil => exact hoperand.mono unary_le
  | cons ops levels ih => exact prompt_level ih hrounds

end Levels

theorem prompt_expr {operand operand' : Parser Expr}
    (hoperand : Prompt c n (language DerivesUnary) operand operand') (hrounds : n ≤ rounds) :
    Prompt c n (language DerivesExpr) (nest (binary rounds operand))
      (nest (binary (c + rounds) operand')) :=
  ((prompt_levels hoperand hrounds precedence).mono levels_le).nest

theorem prompt_unaryAt (depth : Nat) (hrounds : n ≤ rounds) :
    Prompt c n (language DerivesUnary) (unaryAt rounds depth) (unaryAt (c + rounds) (c + depth)) := by
  induction depth with
  | zero => exact prompt_tooDeep _
  | succ depth ih => exact prompt_unary (prompt_expr ih hrounds) ih.nest hrounds

theorem prompt_exprAt (depth : Nat) (hrounds : n ≤ rounds) :
    Prompt c n (language DerivesExpr) (exprAt rounds depth) (exprAt (c + rounds) (c + depth)) :=
  prompt_expr (prompt_unaryAt depth hrounds) hrounds

end Expressions

/-! ## Statements -/

section Statements

variable {c n rounds : Nat} {expr expr' : Parser Expr} {nested nested' : Parser Stmt}

theorem prompt_assignment (hexpr : Prompt c n (language DerivesExpr) expr expr') (hrounds : n ≤ rounds) :
    Prompt c n (language DerivesAssign) (assignment rounds expr) (assignment (c + rounds) expr') :=
  ((prompt_place hexpr hrounds).andThen (by simp) fun _ _ => .afterToken (by simp) fun _ _ =>
    (hexpr.of_le (by omega)).map).mono assignment_le

theorem Prompt.ended {α : Type} {L : Language Token} {p p' : Parser α} (hp : Prompt c n L p p') :
    Prompt c n (L * word (.mark .semicolon)) (ended p) (ended p') :=
  hp.beforeToken (by simp)

theorem prompt_arrayDeclaration (hexpr : Prompt c n (language DerivesExpr) expr expr') :
    Prompt c n (names * (word (.mark .openBracket) * (language DerivesExpr * word (.mark .closeBracket))))
      (arrayDeclaration expr) (arrayDeclaration expr') :=
  prompt_identifier.andThen (by simp) fun ⟨_, _⟩ ⟨_, _⟩ => .afterToken (by simp) fun _ _ =>
    (hexpr.of_le (by omega)).beforeToken (by simp)

/-! ### Blocks -/

theorem pos_of_mem_statements {ts : List Token} (h : ts ∈ language DerivesStatement) : 1 ≤ ts.length := by
  obtain ⟨d, us, stmt, rfl, h⟩ := h
  obtain ⟨first, us, rfl, -⟩ := h.first
  simp

theorem prompt_closing (hnested : Prompt c n (language DerivesStatement) nested nested') {left m : Nat}
    (hm : m ≤ n) (hleft : m < left) (read read' : Array Stmt) :
    Prompt c m (language DerivesStatements * word (.mark .closeBrace)) (closing nested left read)
      (closing nested' (c + left) read') := by
  induction left generalizing m read read' with
  | zero => cases hleft
  | succ left ih =>
    rw [← Nat.add_assoc, closing, closing]
    have hmore : Prompt c m
        (language DerivesStatement * (language DerivesStatements * word (.mark .closeBrace)))
        (do closing nested left (read.push (← nested)))
        (do closing nested' (c + left) (read'.push (← nested'))) :=
      (hnested.of_le hm).bind 1 (fun _ => pos_of_mem_statements) (by simp)
        fun x y k hk => ih (by omega) (by omega) _ _
    have hnone : Prompt c m
        (language DerivesStatement * (language DerivesStatements * word (.mark .closeBrace)))
        (refuse (.token (.mark .closeBrace)) : Parser Block) (refuse (.token (.mark .closeBrace))) :=
      prompt_refuse (by simp) _
    refine (prompt_accept _ (fun _ _ => prompt_pure _ _) (prompt_isEmpty hnone hmore)).mono ?_
    rw [mul_one, ← mul_assoc]
    refine add_le ?_ (mul_le_mul_left moreStatements_le _)
    exact (one_mul _).ge.trans (mul_le_mul_left noStatement_le _)

theorem prompt_block (hnested : Prompt c n (language DerivesStatement) nested nested')
    (hrounds : n ≤ rounds) :
    Prompt c n (language DerivesBlock) (block rounds nested) (block (c + rounds) nested') :=
  (Prompt.afterToken (by simp) fun _ _ =>
    (prompt_closing hnested (by omega) (by omega) #[] #[]).nest).mono braces_le

/-! ### Compound statements -/

/-- An assignment or a call: the token behind the name decides. -/
def assignOrCall (rounds : Nat) (expr : Parser Expr) : Parser Stmt := do
  let (name, loc) ← identifier
  if ← accept (.mark .openParen) then
    return .call ⟨name, ← ended (listed rounds expr), loc⟩
  else
    return .assign (← ended do
      let indices ← indices expr rounds #[]
      mark .assign
      return ⟨⟨name, indices, loc⟩, ← expr⟩)

theorem statement_of_identifier {name : String} :
    Becomes (some (.identifier name)) (statement rounds expr nested) (assignOrCall rounds expr) := by
  intro us d hus
  obtain ⟨l, us, rfl⟩ := exists_cons_of_head hus
  by_cases hnext : us.head?.map Lexeme.token = some (.mark .openParen)
  · obtain ⟨l', us, rfl⟩ := exists_cons_of_head hnext
    have hcall : statement rounds expr nested ⟨⟨.identifier name, l⟩ :: ⟨.mark .openParen, l'⟩ :: us, d⟩ =
        (do return Stmt.call (← ended (call rounds expr)))
          ⟨⟨.identifier name, l⟩ :: ⟨.mark .openParen, l'⟩ :: us, d⟩ :=
      bind_eq ahead_eq rfl
    rw [hcall]
    simp only [assignOrCall, ended, call, parenthesized_eq, bind_assoc, pure_bind]
    exact (bind_eq identifier_eq (bind_eq mark_eq rfl)).trans
      (bind_eq identifier_eq (bind_eq accept_eq rfl)).symm
  · have hother : ∀ next ∈ us.head?, next.token ≠ .mark .openParen := fun next hmem heq =>
      hnext (by rw [Option.mem_def.1 hmem, Option.map_some, heq])
    rw [statement_eq_assign hother]
    simp only [assignOrCall, ended, assignment, place, bind_assoc, pure_bind]
    exact (bind_eq identifier_eq rfl).trans (bind_eq identifier_eq (bind_eq (accept_ne hother) rfl)).symm

/-- What follows the reserved word that a statement starts with. -/
def afterKeyword (rounds : Nat) (expr : Parser Expr) (nested : Parser Stmt) : Keyword → Parser Stmt
  | .print => do return .print (← ended expr)
  | .ret => do return .ret (← ended expr)
  | .array => ended (arrayDeclaration expr)
  | .ifWord => conditional rounds expr nested
  | .whileWord => whileLoop rounds expr nested
  | .forWord => forLoop rounds expr nested
  | .elseWord => refuse .statement

theorem statement_of_keyword {w : Keyword} (hw : w ≠ .elseWord) :
    Becomes (some (.keyword w)) (statement rounds expr nested)
      (token (.keyword w) >>= fun _ => afterKeyword rounds expr nested w) := by
  intro us d hus
  obtain ⟨l, us, rfl⟩ := exists_cons_of_head hus
  refine Eq.trans ?_ (bind_eq token_eq rfl).symm
  cases w with
  | elseWord => exact absurd rfl hw
  | _ => exact bind_eq ahead_eq rfl

theorem statement_of_openBrace :
    Becomes (some (.mark .openBrace)) (statement rounds expr nested)
      (do return Stmt.block (← block rounds nested)) := by
  intro us d hus
  obtain ⟨l, us, rfl⟩ := exists_cons_of_head hus
  exact bind_eq ahead_eq rfl

/-- The first tokens of a statement. -/
def startsStatement : Option Token → Bool
  | some (.keyword w) => w ≠ .elseWord
  | some (.identifier _) | some (.mark .openBrace) => true
  | _ => false

theorem statement_of_other {first : Option Token} (h : startsStatement first = false) :
    Becomes first (statement rounds expr nested) (refuse .statement) := by
  rintro us d rfl
  match us with
  | [] | ⟨.integer _, _⟩ :: _ | ⟨.operator _, _⟩ :: _ => rfl
  | ⟨.identifier _, _⟩ :: _ => cases h
  | ⟨.keyword w, _⟩ :: _ => cases w <;> first | rfl | cases h
  | ⟨.mark m, _⟩ :: _ => cases m <;> first | rfl | cases h

/-- What follows `else`. -/
def elseBody (rounds : Nat) (nested : Parser Stmt) (test : Expr) (yes : Block) : Parser Stmt := do
  match ← ahead with
  | ⟨.keyword .ifWord, _⟩ :: _ => return .branch test yes (some [← nest nested])
  | _ => return .branch test yes (some (← block rounds nested))

theorem elseBody_of_if {test : Expr} {yes : Block} :
    Becomes (some (.keyword .ifWord)) (elseBody rounds nested test yes)
      (do return Stmt.branch test yes (some [← nest nested])) := by
  intro us d hus
  obtain ⟨l, us, rfl⟩ := exists_cons_of_head hus
  rfl

theorem elseBody_of_other {first : Option Token} {test : Expr} {yes : Block}
    (h : first ≠ some (.keyword .ifWord)) :
    Becomes first (elseBody rounds nested test yes)
      (do return Stmt.branch test yes (some (← block rounds nested))) := by
  rintro us d rfl
  refine bind_eq ahead_eq ?_
  split
  · exact absurd rfl h
  · rfl

/-- Of the statements, only conditionals start with `if`. -/
theorem conditional_of_statement {ts : List Token} (h : .keyword .ifWord :: ts ∈ language DerivesStatement) :
    .keyword .ifWord :: ts ∈ language DerivesConditional := by
  obtain ⟨d, us, stmt, hus, h⟩ := h
  obtain ⟨⟨_, l⟩, us, rfl, rfl, rfl⟩ := List.map_eq_cons_iff.1 hus
  exact ⟨d, _, stmt, rfl, h.conditional_of_if (List.append_nil _)⟩

theorem PromptAt.conditional {tokens : List Lexeme} {p p' : Parser Stmt}
    (h : PromptAt c n (language DerivesStatement) tokens p p')
    (hnext : tokens.head?.map Lexeme.token = some (.keyword .ifWord)) :
    PromptAt c n (language DerivesConditional) tokens p p' := by
  have hif : ∀ {ts rest : List Lexeme} {more : List Token}, tokens = ts ++ rest → ts ≠ [] →
      ts.map Lexeme.token ++ more ∈ language DerivesStatement →
      ts.map Lexeme.token ++ more ∈ language DerivesConditional := by
    intro ts rest more htokens hne hmem
    obtain ⟨⟨t, l⟩, ts, rfl⟩ := List.exists_cons_of_ne_nil hne
    obtain rfl : t = .keyword .ifWord := by simpa [htokens] using hnext
    exact conditional_of_statement hmem
  constructor
  · intro d x s hrun
    obtain ⟨ts, rest, htokens, hs, hts, hagain⟩ := h.read hrun
    have hne : ts ≠ [] := fun hnil => absurd (pos_of_mem_statements hts) (by simp [hnil])
    refine ⟨ts, rest, htokens, hs, ?_, hagain⟩
    rw [← List.append_nil (ts.map Lexeme.token)] at hts ⊢
    exact hif htokens hne hts
  · intro d wanted rest hrun
    obtain ⟨ts, htokens, ⟨more, hspelled, hmore⟩, hagain⟩ := h.refused hrun
    by_cases hne : ts = []
    · subst hne
      exact ⟨[], htokens, filled_conditional, hagain⟩
    · exact ⟨ts, htokens, ⟨more, hspelled, hif htokens hne hmore⟩, hagain⟩

section Compound

variable (hexpr : Prompt c n (language DerivesExpr) expr expr')
  (hnested : Prompt c n (language DerivesStatement) nested nested') (hrounds : n ≤ rounds)
include hexpr hnested hrounds

theorem prompt_whileLoop :
    Prompt c n (conditions * language DerivesBlock) (whileLoop rounds expr nested)
      (whileLoop (c + rounds) expr' nested') :=
  (prompt_condition hexpr).andThen filled_block fun _ _ => (prompt_block hnested hrounds).map

theorem prompt_forLoop :
    Prompt c n (word (.mark .openParen) * (language DerivesAssign * word (.mark .semicolon) *
      (language DerivesExpr * word (.mark .semicolon) * (language DerivesAssign *
        (word (.mark .closeParen) * language DerivesBlock)))))
      (forLoop rounds expr nested) (forLoop (c + rounds) expr' nested') := by
  refine .afterToken (by simp) fun m hm => ?_
  have hexpr := hexpr.of_le (Nat.le_of_succ_le hm)
  have hnested := hnested.of_le (Nat.le_of_succ_le hm)
  have hassign := prompt_assignment hexpr ((Nat.le_of_succ_le hm).trans hrounds)
  refine hassign.ended.andThen (by simp) fun _ _ => hexpr.ended.andThen (by simp) fun _ _ =>
    hassign.andThen (by simp) fun _ _ => .afterToken (by simp) fun k hk => ?_
  exact (prompt_block (hnested.of_le (by omega)) (by omega)).map

omit hexpr in
theorem prompt_elseBody (test test' : Expr) (yes yes' : Block) :
    Prompt c n (language DerivesConditional + language DerivesBlock) (elseBody rounds nested test yes)
      (elseBody (c + rounds) nested' test' yes') := by
  intro tokens hn
  by_cases hnext : tokens.head?.map Lexeme.token = some (.keyword .ifWord)
  · have hbody : Prompt c n (language DerivesStatement)
        (do return Stmt.branch test yes (some [← nest nested]))
        (do return Stmt.branch test' yes' (some [← nest nested'])) := hnested.nest.map
    exact (((hbody tokens hn).conditional hnext).mono le_self_add).congr hnext elseBody_of_if elseBody_of_if
  · have hbody : Prompt c n (language DerivesBlock)
        (do return Stmt.branch test yes (some (← block rounds nested)))
        (do return Stmt.branch test' yes' (some (← block (c + rounds) nested'))) :=
      (prompt_block hnested hrounds).map
    exact ((hbody tokens hn).mono le_add_self).congr rfl (elseBody_of_other hnext) (elseBody_of_other hnext)

theorem prompt_conditional :
    Prompt c n (conditions * (language DerivesBlock *
      (word (.keyword .elseWord) * (language DerivesConditional + language DerivesBlock) + 1)))
      (conditional rounds expr nested) (conditional (c + rounds) expr' nested') :=
  (prompt_condition hexpr).andThen (by simp) fun test test' =>
    (prompt_block hnested hrounds).andThen (by simp) fun yes yes' =>
      prompt_accept _ (fun m hm => prompt_elseBody (hnested.of_le (by omega)) (by omega) test test' yes yes')
        (prompt_pure _ _)

omit hnested in
theorem prompt_assignOrCall :
    Prompt c n (language DerivesStatement) (assignOrCall rounds expr) (assignOrCall (c + rounds) expr') := by
  refine (prompt_identifier.andThen (by simp) fun ⟨name, l⟩ ⟨name', l'⟩ => prompt_accept (.mark .openParen)
    (fun m hm => (prompt_listed hexpr filled_args lastArg_le moreArgs_le (by omega) (by omega)).ended.map)
    ((prompt_indices hexpr le_rfl hrounds #[] #[]).andThen (by simp) fun _ _ =>
      .afterToken (by simp) fun m hm => (hexpr.of_le (by omega)).map).ended.map).mono ?_
  rw [mul_add]
  refine add_le ?_ ?_
  · rw [← mul_assoc, ← mul_assoc, mul_assoc names]
    exact (mul_le_mul_left args_le _).trans callStatement_le
  · rw [← mul_assoc, ← mul_assoc]
    exact (mul_le_mul_left ((mul_le_mul_left indexed_le _).trans assignment_le) _).trans assign_le

theorem prompt_afterKeyword {w : Keyword} (hw : w ≠ .elseWord) :
    ∃ M, Filled M ∧ word (.keyword w) * M ≤ language DerivesStatement ∧
      Prompt c n M (afterKeyword rounds expr nested w) (afterKeyword (c + rounds) expr' nested' w) := by
  cases w with
  | print => exact ⟨_, by simp, print_le, hexpr.ended.map⟩
  | ret => exact ⟨_, by simp, ret_le, hexpr.ended.map⟩
  | array => exact ⟨_, by simp, array_le, (prompt_arrayDeclaration hexpr).ended⟩
  | ifWord =>
    exact ⟨_, by simp [conditions], branch_le.trans conditional_le, prompt_conditional hexpr hnested hrounds⟩
  | whileWord => exact ⟨_, by simp [conditions], whileLoop_le, prompt_whileLoop hexpr hnested hrounds⟩
  | forWord => exact ⟨_, by simp, forLoop_le, prompt_forLoop hexpr hnested hrounds⟩
  | elseWord => exact absurd rfl hw

theorem prompt_statement :
    Prompt c n (language DerivesStatement) (statement rounds expr nested)
      (statement (c + rounds) expr' nested') := by
  intro tokens hn
  cases hstart : startsStatement (tokens.head?.map Lexeme.token) with
  | false =>
    exact (prompt_refuse filled_statement .statement tokens hn).congr rfl (statement_of_other hstart)
      (statement_of_other hstart)
  | true =>
    unfold startsStatement at hstart
    split at hstart
    · rename_i w hnext
      have hw : w ≠ .elseWord := of_decide_eq_true hstart
      obtain ⟨M, hM, hle, hprompt⟩ := prompt_afterKeyword hexpr hnested hrounds hw
      have hword := Prompt.afterToken (filled_mul.2 ⟨filled_keyword w, hM⟩) fun m hm =>
        hprompt.of_le (Nat.le_of_succ_le hm)
      exact ((hword tokens hn).mono hle).congr hnext (statement_of_keyword hw) (statement_of_keyword hw)
    · rename_i name hnext
      exact (prompt_assignOrCall hexpr hrounds tokens hn).congr hnext statement_of_identifier
        statement_of_identifier
    · rename_i hnext
      exact (((prompt_block hnested hrounds).map tokens hn).mono block_le).congr hnext
        statement_of_openBrace statement_of_openBrace
    · cases hstart

end Compound

theorem prompt_statementAt (depth : Nat) (hrounds : n ≤ rounds) :
    Prompt c n (language DerivesStatement) (statementAt rounds depth)
      (statementAt (c + rounds) (c + depth)) := by
  induction depth with
  | zero => exact prompt_tooDeep _
  | succ depth ih => exact prompt_statement (prompt_exprAt depth hrounds) ih hrounds

end Statements

/-! ## Programs -/

section Programs

variable {c n rounds : Nat}

theorem prompt_functionAt (depth : Nat) (hrounds : n ≤ rounds) :
    Prompt c n (language DerivesFunction) (functionAt rounds depth)
      (functionAt (c + rounds) (c + depth)) :=
  (prompt_identifier.andThen (by simp) fun ⟨_, _⟩ ⟨_, _⟩ =>
    (prompt_parenthesized prompt_identifier filled_parameters lastName_le moreNames_le hrounds).andThen
      filled_block fun _ _ => (prompt_block (prompt_statementAt depth hrounds) hrounds).map).mono function_le

theorem pos_of_mem_functions {ts : List Token} (h : ts ∈ language DerivesFunction) : 1 ≤ ts.length := by
  obtain ⟨d, us, f, rfl, h⟩ := h
  cases h <;> simp

theorem functionsAt_of_end {bound depth : Nat} (left : Nat) (read : Array Function) :
    Becomes none (functionsAt bound depth left read) (pure read.toList) := by
  intro us d hus
  obtain rfl : us = [] := by simpa using hus
  cases left <;> rfl

theorem prompt_functionsAt (depth : Nat) (hrounds : n ≤ rounds) {left m : Nat} (hm : m ≤ n) (hleft : m ≤ left)
    (read read' : Array Function) :
    Prompt c m (language DerivesFunctions) (functionsAt rounds depth left read)
      (functionsAt (c + rounds) (c + depth) (c + left) read') := by
  induction left generalizing m read read' with
  | zero =>
    obtain rfl := Nat.le_zero.1 hleft
    exact prompt_noTokens noFunction_le (functionsAt_of_end _ _) (functionsAt_of_end _ _)
  | succ left ih =>
    rw [← Nat.add_assoc, functionsAt, functionsAt]
    have hmore : Prompt c m (language DerivesFunction * language DerivesFunctions)
        (do functionsAt rounds depth left (read.push (← functionAt rounds depth)))
        (do
          let f ← functionAt (c + rounds) (c + depth)
          functionsAt (c + rounds) (c + depth) (c + left) (read'.push f)) :=
      ((prompt_functionAt depth hrounds).of_le hm).bind 1 (fun _ => pos_of_mem_functions) filled_functions
        fun _ _ k hk => ih (by omega) (by omega) _ _
    exact prompt_isEmpty ((prompt_pure _ _).mono noFunction_le) (hmore.mono moreFunctions_le)

end Programs

end CMinusMinus.Parser

namespace CMinusMinus

open Grammar

/-- The tokens are those of a program of the grammar, however deep it nests. -/
def Grammar.IsProgram (tokens : List Token) : Prop :=
  ∃ d ts tree, ts.map Lexeme.token = tokens ∧ DerivesProgram d ts tree

/-- The parser refuses the first token that no program has there. -/
theorem Parser.program_refused {tokens rest : List Lexeme} {wanted : Wanted}
    (h : program tokens = .error ⟨some wanted, rest⟩) :
    ∃ before, tokens = before ++ rest ∧
      (∃ more, Spelled more ∧ IsProgram (before.map Lexeme.token ++ more)) ∧
      ∀ after : List Token, after.head? = rest.head?.map Lexeme.token →
        ¬ IsProgram (before.map Lexeme.token ++ after) := by
  have hrun : functionsAt tokens.length maxNesting tokens.length #[] ⟨tokens, maxNesting⟩ =
      .error ⟨some wanted, rest⟩ := by
    rw [← functions_eq]
    unfold program at h
    cases hf : functions tokens.length tokens.length #[] ⟨tokens, maxNesting⟩ with
    | ok read =>
      rw [hf] at h
      cases h
    | error refusal =>
      rw [hf] at h
      cases h
      rfl
  have hprompt : ∀ c, PromptAt c tokens.length (language DerivesFunctions) tokens _ _ := fun c =>
    prompt_functionsAt (c := c) maxNesting le_rfl le_rfl le_rfl #[] #[] tokens le_rfl
  obtain ⟨before, htokens, ⟨more, hspelled, d, ts, fs, hts, hderives⟩, -⟩ := (hprompt 0).refused hrun
  refine ⟨before, htokens, ⟨more, hspelled, d, ts, ⟨fs⟩, hts, hderives⟩, ?_⟩
  rintro after hafter ⟨d', us, tree, hus, hderives'⟩
  -- with room for the other program, the parser would have to accept it and to refuse it
  obtain ⟨c, hc⟩ : ∃ c, d' + us.length = c := ⟨_, rfl⟩
  obtain ⟨before', htokens', -, hagain⟩ := (hprompt c).refused hrun
  obtain rfl := List.append_cancel_right (htokens.symm.trans htokens')
  obtain ⟨us₁, us₂, rfl, hus₁, rfl⟩ := List.map_eq_append_iff.1 hus
  have hrefused := hagain us₁ us₂ ⟨hus₁, by rw [← hafter, List.head?_map]⟩ (by omega)
  have hdeep : DerivesFunctions (c + maxNesting) (us₁ ++ us₂) tree.functions :=
    DerivesFunctions.mono hderives' (by omega)
  have haccepted : functionsAt (c + tokens.length) (c + maxNesting) (c + tokens.length) #[]
      ⟨us₁ ++ us₂, c + maxNesting⟩ = .ok (tree.functions, ⟨[], c + maxNesting⟩) :=
    run_functionsAt hdeep le_rfl (by omega) _ _ (by omega)
  cases hrefused.symm.trans haccepted

theorem Lexer.cause_of_lexFrom {loc : Loc} {read : Array Lexeme} {cs : List Char} {e : ParseError}
    (h : lexFrom loc read cs = .error e) : ∃ c, e.cause = .unexpectedCharacter c := by
  fun_induction lexFrom loc read cs with
  | case1 => cases h
  | case2 loc read c cs hblank ih => exact ih h
  | case3 loc read c cs hblank hcomment skipped ih => exact ih h
  | case4 loc read c =>
    cases h
    exact ⟨c, rfl⟩
  | case5 loc read c cs hblank hcomment token more htoken ih => exact ih h

/-- An error that tells what was expected is at the first token that no program has there, however deep
programs may nest: the tokens before it begin one, and no program goes on with that token. At the end of the
text the tokens are no program. -/
theorem parse_unexpected {source : String} {wanted : Wanted} {found : Option Token} {loc : Loc}
    (h : parse source = .error ⟨.unexpected wanted found, loc⟩) :
    ∃ before after stop, Lexer.lex source = .ok (before ++ after, stop) ∧
      found = after.head?.map Lexeme.token ∧ loc = (after.head?.map Lexeme.loc).getD stop ∧
      (∃ more, Spelled more ∧ IsProgram (before.map Lexeme.token ++ more)) ∧
      ∀ more, more.head? = found → ¬ IsProgram (before.map Lexeme.token ++ more) := by
  unfold parse at h
  cases hlex : Lexer.lex source with
  | error e =>
    rw [hlex] at h
    cases h
    obtain ⟨c, hc⟩ := Lexer.cause_of_lexFrom hlex
    cases hc
  | ok lexed =>
    obtain ⟨tokens, stop⟩ := lexed
    cases hprogram : Parser.program tokens with
    | ok tree => simp [hlex, Bind.bind, Except.bind, hprogram] at h
    | error refusal =>
      obtain ⟨wanted', rest⟩ := refusal
      simp only [hlex, Bind.bind, Except.bind, hprogram, Except.error.injEq] at h
      cases wanted' with
      | none => cases h
      | some wanted' =>
        cases h
        obtain ⟨before, rfl, hbegins, hstops⟩ := Parser.program_refused hprogram
        exact ⟨before, rest, stop, rfl, rfl, rfl, hbegins, hstops⟩

/-- The tokens of a program whose only statement lacks its semicolon. -/
def unended : List Lexeme :=
  [⟨.identifier "main", ⟨1, 1⟩⟩, ⟨.mark .openParen, ⟨1, 5⟩⟩, ⟨.mark .closeParen, ⟨1, 6⟩⟩,
    ⟨.mark .openBrace, ⟨1, 8⟩⟩, ⟨.keyword .print, ⟨1, 10⟩⟩, ⟨.integer 1, ⟨1, 16⟩⟩,
    ⟨.mark .closeBrace, ⟨1, 18⟩⟩]

set_option maxRecDepth 4000 in
theorem parse_unexpected_closeBrace :
    let before := (unended.take 6).map Lexeme.token
    Lexer.lex "main() \x7b print 1 \x7d" = .ok (unended, ⟨1, 19⟩) ∧
    parse "main() \x7b print 1 \x7d" =
      .error ⟨.unexpected (.token (.mark .semicolon)) (some (.mark .closeBrace)), ⟨1, 18⟩⟩ ∧
    (∃ more, Spelled more ∧ IsProgram (before ++ more)) ∧
      ∀ more, ¬ IsProgram (before ++ .mark .closeBrace :: more) := by
  intro before
  have hlexed : Lexer.lex "main() \x7b print 1 \x7d" = .ok (unended, ⟨1, 19⟩) := by cbv
  have herror : parse "main() \x7b print 1 \x7d" =
      .error ⟨.unexpected (.token (.mark .semicolon)) (some (.mark .closeBrace)), ⟨1, 18⟩⟩ := by cbv
  obtain ⟨taken, after, stop, hlex, hfound, -, hbegins, hstops⟩ := parse_unexpected herror
  have hsplit : taken ++ after = unended := congrArg Prod.fst (Except.ok.inj (hlex.symm.trans hlexed))
  have hlength : taken.length ≤ unended.length := by
    rw [← hsplit, List.length_append]
    exact Nat.le_add_right _ _
  -- of the tokens only the last one is a closing brace
  have hlast : ∀ k ≤ unended.length, some (.mark .closeBrace) = (unended.drop k).head?.map Lexeme.token →
      (unended.take k).map Lexeme.token = before := by decide
  have htaken := hlast taken.length hlength (by rw [← hsplit, List.drop_left]; exact hfound)
  rw [← hsplit, List.take_left] at htaken
  rw [htaken] at hbegins hstops
  exact ⟨hlexed, herror, hbegins, fun more => hstops _ rfl⟩

end CMinusMinus
