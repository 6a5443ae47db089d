import CMinusMinus.Proofs.Source.Grammar
import CMinusMinus.Proofs.Source.Spelling

/-!
# The languages of the grammar

What derives a tree with some nesting derives it with more, so each symbol of the grammar has one language, of
the tokens that derive any tree with any nesting. Its rules are inclusions between products of languages, and
no symbol has the empty language.
-/

namespace CMinusMinus.Grammar

/-! ## More nesting -/

mutual

theorem DerivesExpr.mono : ∀ {d d' ts e}, DerivesExpr d ts e → d ≤ d' → DerivesExpr d' ts e
  | _, 0, _, _, .levels _, hd => absurd hd (Nat.not_succ_le_zero _)
  | _, _ + 1, _, _, .levels h, hd => .levels (h.mono (Nat.le_of_succ_le_succ hd))

theorem DerivesLevel.mono : ∀ {levels d d' ts e}, DerivesLevel levels d ts e → d ≤ d' →
    DerivesLevel levels d' ts e
  | _, _, _, _, _, .unary h, hd => .unary (h.mono hd)
  | _, _, _, _, _, .operand h, hd => .operand (h.mono hd)
  | _, _, _, _, _, .binary hl hop hr, hd => .binary (hl.mono hd) hop (hr.mono hd)

theorem DerivesUnary.mono : ∀ {d d' ts e}, DerivesUnary d ts e → d ≤ d' → DerivesUnary d' ts e
  | _, _ + 1, _, _, .neg h, hd => .neg (h.mono (Nat.le_of_succ_le_succ hd))
  | _, _, _, _, .primary h, hd => .primary (h.mono hd)

theorem DerivesPrimary.mono : ∀ {d d' ts e}, DerivesPrimary d ts e → d ≤ d' → DerivesPrimary d' ts e
  | _, _, _, _, .int, _ => .int
  | _, _, _, _, .call h, hd => .call (h.mono hd)
  | _, _, _, _, .place h, hd => .place (h.mono hd)
  | _, _, _, _, .parenthesized h, hd => .parenthesized (h.mono hd)

theorem DerivesPlace.mono : ∀ {d d' ts p}, DerivesPlace d ts p → d ≤ d' → DerivesPlace d' ts p
  | _, _, _, _, .indexed h, hd => .indexed (h.mono hd)

theorem DerivesIndices.mono : ∀ {d d' ts es}, DerivesIndices d ts es → d ≤ d' → DerivesIndices d' ts es
  | _, _, _, _, .nil, _ => .nil
  | _, _, _, _, .cons hindex h, hd => .cons (hindex.mono hd) (h.mono hd)

theorem DerivesCall.mono : ∀ {d d' ts c}, DerivesCall d ts c → d ≤ d' → DerivesCall d' ts c
  | _, _, _, _, .empty, _ => .empty
  | _, _, _, _, .args h, hd => .args (h.mono hd)

theorem DerivesArgs.mono : ∀ {d d' ts args}, DerivesArgs d ts args → d ≤ d' → DerivesArgs d' ts args
  | _, _, _, _, .last harg, hd => .last (harg.mono hd)
  | _, _, _, _, .cons harg h, hd => .cons (harg.mono hd) (h.mono hd)

end

theorem DerivesAssign.mono : ∀ {d d' ts a}, DerivesAssign d ts a → d ≤ d' → DerivesAssign d' ts a
  | _, _, _, _, .assign htarget hvalue, hd => .assign (htarget.mono hd) (hvalue.mono hd)

mutual

theorem DerivesStatement.mono : ∀ {d d' ts stmt}, DerivesStatement d ts stmt → d ≤ d' →
    DerivesStatement d' ts stmt
  | _, _, _, _, .print he, hd => .print (he.mono hd)
  | _, _, _, _, .ret he, hd => .ret (he.mono hd)
  | _, _, _, _, .array he, hd => .array (he.mono hd)
  | _, _, _, _, .conditional hc, hd => .conditional (hc.mono hd)
  | _, _, _, _, .whileLoop he hb, hd => .whileLoop (he.mono hd) (hb.mono hd)
  | _, _, _, _, .forLoop hinit he hstep hb, hd =>
    .forLoop (hinit.mono hd) (he.mono hd) (hstep.mono hd) (hb.mono hd)
  | _, _, _, _, .assign ha, hd => .assign (ha.mono hd)
  | _, _, _, _, .call hc, hd => .call (hc.mono hd)
  | _, _, _, _, .block hb, hd => .block (hb.mono hd)

theorem DerivesConditional.mono : ∀ {d d' ts stmt}, DerivesConditional d ts stmt → d ≤ d' →
    DerivesConditional d' ts stmt
  | _, _, _, _, .noElse he hyes, hd => .noElse (he.mono hd) (hyes.mono hd)
  | _, _, _, _, .elseBlock he hyes hno, hd => .elseBlock (he.mono hd) (hyes.mono hd) (hno.mono hd)
  | _, _ + 1, _, _, .elseIf he hyes hno, hd => .elseIf (he.mono hd) (hyes.mono hd)
    (hno.mono (Nat.le_of_succ_le_succ hd))

theorem DerivesBlock.mono : ∀ {d d' ts body}, DerivesBlock d ts body → d ≤ d' → DerivesBlock d' ts body
  | _, 0, _, _, .braces _, hd => absurd hd (Nat.not_succ_le_zero _)
  | _, _ + 1, _, _, .braces h, hd => .braces (h.mono (Nat.le_of_succ_le_succ hd))

theorem DerivesStatements.mono : ∀ {d d' ts body}, DerivesStatements d ts body → d ≤ d' →
    DerivesStatements d' ts body
  | _, _, _, _, .nil, _ => .nil
  | _, _, _, _, .cons hs h, hd => .cons (hs.mono hd) (h.mono hd)

end

theorem DerivesFunction.mono : ∀ {d d' ts f}, DerivesFunction d ts f → d ≤ d' → DerivesFunction d' ts f
  | _, _, _, _, .empty hb, hd => .empty (hb.mono hd)
  | _, _, _, _, .params hp hb, hd => .params hp (hb.mono hd)

theorem DerivesFunctions.mono : ∀ {d d' ts fs}, DerivesFunctions d ts fs → d ≤ d' → DerivesFunctions d' ts fs
  | _, _, _, _, .nil, _ => .nil
  | _, _, _, _, .cons hf h, hd => .cons (hf.mono hd) (h.mono hd)

/-! ## Languages -/

/-- The tokens that derive something, with any nesting. -/
def language {α : Type} (T : Nat → List Lexeme → α → Prop) : Language Token :=
  {tokens | ∃ d ts x, ts.map Lexeme.token = tokens ∧ T d ts x}

/-- One token. -/
def word (t : Token) : Language Token :=
  {[t]}

def names : Language Token :=
  {tokens | ∃ name, tokens = [.identifier name]}

def literals : Language Token :=
  {tokens | ∃ value, tokens = [.integer value]}

def operators (ops : List BinaryOp) : Language Token :=
  {tokens | ∃ op ∈ ops, tokens = [.operator op]}

/-! ### Expressions -/

section Expressions

variable {ops : List BinaryOp} {levels : List (List BinaryOp)}

theorem levels_le : language (DerivesLevel precedence) ≤ language DerivesExpr := by
  rintro _ ⟨d, ts, e, rfl, h⟩
  exact ⟨d + 1, ts, e, rfl, .levels h⟩

theorem unary_le : language DerivesUnary ≤ language (DerivesLevel []) := by
  rintro _ ⟨d, ts, e, rfl, h⟩
  exact ⟨d, ts, e, rfl, .unary h⟩

theorem operand_le : language (DerivesLevel levels) ≤ language (DerivesLevel (ops :: levels)) := by
  rintro _ ⟨d, ts, e, rfl, h⟩
  exact ⟨d, ts, e, rfl, .operand h⟩

theorem binary_le : language (DerivesLevel (ops :: levels)) *
    (operators ops * language (DerivesLevel levels)) ≤ language (DerivesLevel (ops :: levels)) := by
  rintro _ ⟨_, ⟨d, ts, lhs, rfl, hl⟩, _, ⟨_, ⟨op, hop, rfl⟩, _, ⟨d', us, rhs, rfl, hr⟩, rfl⟩, rfl⟩
  exact ⟨d + d', ts ++ ⟨.operator op, .start⟩ :: us, _, by simp,
    .binary (hl.mono (by omega)) hop (hr.mono (by omega))⟩

theorem neg_le : word (.operator .sub) * language DerivesUnary ≤ language DerivesUnary := by
  rintro _ ⟨_, rfl, _, ⟨d, ts, e, rfl, h⟩, rfl⟩
  exact ⟨d + 1, ⟨.operator .sub, .start⟩ :: ts, _, rfl, .neg h⟩

theorem primary_le : language DerivesPrimary ≤ language DerivesUnary := by
  rintro _ ⟨d, ts, e, rfl, h⟩
  exact ⟨d, ts, e, rfl, .primary h⟩

theorem literals_le : literals ≤ language DerivesPrimary := by
  rintro _ ⟨value, rfl⟩
  exact ⟨0, [⟨.integer value, .start⟩], _, rfl, .int⟩

theorem call_le : language DerivesCall ≤ language DerivesPrimary := by
  rintro _ ⟨d, ts, c, rfl, h⟩
  exact ⟨d, ts, _, rfl, .call h⟩

theorem place_le : language DerivesPlace ≤ language DerivesPrimary := by
  rintro _ ⟨d, ts, p, rfl, h⟩
  exact ⟨d, ts, _, rfl, .place h⟩

/-- An expression in parentheses. -/
def conditions : Language Token :=
  word (.mark .openParen) * (language DerivesExpr * word (.mark .closeParen))

theorem exists_of_mem_conditions {tokens : List Token} (h : tokens ∈ conditions) :
    ∃ d ts e, tokens = .mark .openParen :: (ts.map Lexeme.token ++ [.mark .closeParen]) ∧
      DerivesExpr d ts e := by
  obtain ⟨_, rfl, _, ⟨_, ⟨d, ts, e, rfl, h⟩, _, rfl, rfl⟩, rfl⟩ := h
  exact ⟨d, ts, e, rfl, h⟩

theorem conditions_le : conditions ≤ language DerivesPrimary := by
  intro _ hcondition
  obtain ⟨d, ts, e, rfl, h⟩ := exists_of_mem_conditions hcondition
  exact ⟨d, ⟨.mark .openParen, .start⟩ :: (ts ++ [⟨.mark .closeParen, .start⟩]), e, by simp,
    .parenthesized h⟩

theorem indexed_le : names * language DerivesIndices ≤ language DerivesPlace := by
  rintro _ ⟨_, ⟨name, rfl⟩, _, ⟨d, ts, indices, rfl, h⟩, rfl⟩
  exact ⟨d, ⟨.identifier name, .start⟩ :: ts, _, rfl, .indexed h⟩

theorem noIndex_le : 1 ≤ language DerivesIndices := by
  rintro _ rfl
  exact ⟨0, [], [], rfl, .nil⟩

theorem index_le : word (.mark .openBracket) *
    (language DerivesExpr * (word (.mark .closeBracket) * language DerivesIndices)) ≤
      language DerivesIndices := by
  rintro _ ⟨_, rfl, _, ⟨_, ⟨d, ts, e, rfl, h⟩, _, ⟨_, rfl, _, ⟨d', us, es, rfl, h'⟩, rfl⟩, rfl⟩, rfl⟩
  exact ⟨d + d', ⟨.mark .openBracket, .start⟩ :: (ts ++ ⟨.mark .closeBracket, .start⟩ :: us), e :: es,
    by simp, .cons (h.mono (by omega)) (h'.mono (by omega))⟩

theorem args_le : names * (word (.mark .openParen) *
    (word (.mark .closeParen) + language DerivesArgs * word (.mark .closeParen))) ≤ language DerivesCall := by
  rintro _ ⟨_, ⟨name, rfl⟩, _, ⟨_, rfl, _, rfl | ⟨_, ⟨d, ts, args, rfl, h⟩, _, rfl, rfl⟩, rfl⟩, rfl⟩
  · exact ⟨0, [⟨.identifier name, .start⟩, ⟨.mark .openParen, .start⟩, ⟨.mark .closeParen, .start⟩], _, rfl,
      .empty⟩
  · exact ⟨d, ⟨.identifier name, .start⟩ :: ⟨.mark .openParen, .start⟩ ::
      (ts ++ [⟨.mark .closeParen, .start⟩]), _, by simp, .args h⟩

theorem lastArg_le : language DerivesExpr ≤ language DerivesArgs := by
  rintro _ ⟨d, ts, arg, rfl, h⟩
  exact ⟨d, ts, [arg], rfl, .last h⟩

theorem moreArgs_le : language DerivesExpr * (word (.mark .comma) * language DerivesArgs) ≤
    language DerivesArgs := by
  rintro _ ⟨_, ⟨d, ts, arg, rfl, h⟩, _, ⟨_, rfl, _, ⟨d', us, args, rfl, h'⟩, rfl⟩, rfl⟩
  exact ⟨d + d', ts ++ ⟨.mark .comma, .start⟩ :: us, arg :: args, by simp,
    .cons (h.mono (by omega)) (h'.mono (by omega))⟩

theorem assignment_le : language DerivesPlace * (word (.mark .assign) * language DerivesExpr) ≤
    language DerivesAssign := by
  rintro _ ⟨_, ⟨d, ts, p, rfl, h⟩, _, ⟨_, rfl, _, ⟨d', us, e, rfl, h'⟩, rfl⟩, rfl⟩
  exact ⟨d + d', ts ++ ⟨.mark .assign, .start⟩ :: us, ⟨p, e⟩, by simp,
    .assign (h.mono (by omega)) (h'.mono (by omega))⟩

end Expressions

/-! ### Statements -/

theorem print_le : word (.keyword .print) * (language DerivesExpr * word (.mark .semicolon)) ≤
    language DerivesStatement := by
  rintro _ ⟨_, rfl, _, ⟨_, ⟨d, ts, e, rfl, h⟩, _, rfl, rfl⟩, rfl⟩
  exact ⟨d, ⟨.keyword .print, .start⟩ :: (ts ++ [⟨.mark .semicolon, .start⟩]), _, by simp, .print h⟩

theorem ret_le : word (.keyword .ret) * (language DerivesExpr * word (.mark .semicolon)) ≤
    language DerivesStatement := by
  rintro _ ⟨_, rfl, _, ⟨_, ⟨d, ts, e, rfl, h⟩, _, rfl, rfl⟩, rfl⟩
  exact ⟨d, ⟨.keyword .ret, .start⟩ :: (ts ++ [⟨.mark .semicolon, .start⟩]), _, by simp, .ret h⟩

theorem array_le : word (.keyword .array) * (names * (word (.mark .openBracket) *
    (language DerivesExpr * word (.mark .closeBracket))) * word (.mark .semicolon)) ≤
      language DerivesStatement := by
  rintro _ ⟨_, rfl, _, ⟨_, ⟨_, ⟨name, rfl⟩, _, ⟨_, rfl, _, hsize, rfl⟩, rfl⟩, _, rfl, rfl⟩, rfl⟩
  obtain ⟨_, ⟨d, ts, e, rfl, h⟩, _, rfl, rfl⟩ := hsize
  exact ⟨d, ⟨.keyword .array, .start⟩ :: ⟨.identifier name, .start⟩ :: ⟨.mark .openBracket, .start⟩ ::
    (ts ++ [⟨.mark .closeBracket, .start⟩, ⟨.mark .semicolon, .start⟩]), _, by simp, .array h⟩

theorem conditional_le : language DerivesConditional ≤ language DerivesStatement := by
  rintro _ ⟨d, ts, stmt, rfl, h⟩
  exact ⟨d, ts, stmt, rfl, .conditional h⟩

theorem whileLoop_le : word (.keyword .whileWord) * (conditions * language DerivesBlock) ≤
    language DerivesStatement := by
  rintro _ ⟨_, rfl, _, ⟨_, hcondition, _, ⟨d', us, body, rfl, h'⟩, rfl⟩, rfl⟩
  obtain ⟨d, ts, e, rfl, h⟩ := exists_of_mem_conditions hcondition
  exact ⟨d + d', ⟨.keyword .whileWord, .start⟩ :: ⟨.mark .openParen, .start⟩ ::
    (ts ++ ⟨.mark .closeParen, .start⟩ :: us), _, by simp,
    .whileLoop (h.mono (by omega)) (h'.mono (by omega))⟩

theorem forLoop_le : word (.keyword .forWord) * (word (.mark .openParen) *
    (language DerivesAssign * word (.mark .semicolon) * (language DerivesExpr * word (.mark .semicolon) *
      (language DerivesAssign * (word (.mark .closeParen) * language DerivesBlock))))) ≤
        language DerivesStatement := by
  rintro _ ⟨_, rfl, _, ⟨_, rfl, _, ⟨_, ⟨_, ⟨d₁, ts, init, rfl, h₁⟩, _, rfl, rfl⟩, _, htest, rfl⟩, rfl⟩, rfl⟩
  obtain ⟨_, ⟨_, ⟨d₂, us, e, rfl, h₂⟩, _, rfl, rfl⟩, _, hstep, rfl⟩ := htest
  obtain ⟨_, ⟨d₃, vs, step, rfl, h₃⟩, _, ⟨_, rfl, _, ⟨d₄, ws, body, rfl, h₄⟩, rfl⟩, rfl⟩ := hstep
  exact ⟨d₁ + d₂ + d₃ + d₄, ⟨.keyword .forWord, .start⟩ :: ⟨.mark .openParen, .start⟩ ::
    (ts ++ ⟨.mark .semicolon, .start⟩ :: (us ++ ⟨.mark .semicolon, .start⟩ ::
      (vs ++ ⟨.mark .closeParen, .start⟩ :: ws))), _, by simp,
    .forLoop (h₁.mono (by omega)) (h₂.mono (by omega)) (h₃.mono (by omega)) (h₄.mono (by omega))⟩

theorem assign_le : language DerivesAssign * word (.mark .semicolon) ≤ language DerivesStatement := by
  rintro _ ⟨_, ⟨d, ts, a, rfl, h⟩, _, rfl, rfl⟩
  exact ⟨d, ts ++ [⟨.mark .semicolon, .start⟩], _, by simp, .assign h⟩

theorem callStatement_le : language DerivesCall * word (.mark .semicolon) ≤ language DerivesStatement := by
  rintro _ ⟨_, ⟨d, ts, c, rfl, h⟩, _, rfl, rfl⟩
  exact ⟨d, ts ++ [⟨.mark .semicolon, .start⟩], _, by simp, .call h⟩

theorem block_le : language DerivesBlock ≤ language DerivesStatement := by
  rintro _ ⟨d, ts, body, rfl, h⟩
  exact ⟨d, ts, _, rfl, .block h⟩

theorem branch_le : word (.keyword .ifWord) * (conditions * (language DerivesBlock *
    (word (.keyword .elseWord) * (language DerivesConditional + language DerivesBlock) + 1))) ≤
      language DerivesConditional := by
  rintro _ ⟨_, rfl, _, ⟨_, hcondition, _, ⟨_, ⟨d', us, yes, rfl, h'⟩, _, helse, rfl⟩, rfl⟩, rfl⟩
  obtain ⟨d, ts, e, rfl, h⟩ := exists_of_mem_conditions hcondition
  obtain ⟨_, rfl, _, ⟨d'', vs, no, rfl, h''⟩ | ⟨d'', vs, no, rfl, h''⟩, rfl⟩ | rfl := helse
  · exact ⟨d + d' + d'' + 1, ⟨.keyword .ifWord, .start⟩ :: ⟨.mark .openParen, .start⟩ ::
      (ts ++ ⟨.mark .closeParen, .start⟩ :: (us ++ ⟨.keyword .elseWord, .start⟩ :: vs)), _, by simp,
      .elseIf (h.mono (by omega)) (h'.mono (by omega)) (h''.mono (by omega))⟩
  · exact ⟨d + d' + d'', ⟨.keyword .ifWord, .start⟩ :: ⟨.mark .openParen, .start⟩ ::
      (ts ++ ⟨.mark .closeParen, .start⟩ :: (us ++ ⟨.keyword .elseWord, .start⟩ :: vs)), _, by simp,
      .elseBlock (h.mono (by omega)) (h'.mono (by omega)) (h''.mono (by omega))⟩
  · exact ⟨d + d', ⟨.keyword .ifWord, .start⟩ :: ⟨.mark .openParen, .start⟩ ::
      (ts ++ ⟨.mark .closeParen, .start⟩ :: us), _, by simp,
      .noElse (h.mono (by omega)) (h'.mono (by omega))⟩

theorem braces_le : word (.mark .openBrace) * (language DerivesStatements * word (.mark .closeBrace)) ≤
    language DerivesBlock := by
  rintro _ ⟨_, rfl, _, ⟨_, ⟨d, ts, body, rfl, h⟩, _, rfl, rfl⟩, rfl⟩
  exact ⟨d + 1, ⟨.mark .openBrace, .start⟩ :: (ts ++ [⟨.mark .closeBrace, .start⟩]), _, by simp, .braces h⟩

theorem noStatement_le : 1 ≤ language DerivesStatements := by
  rintro _ rfl
  exact ⟨0, [], [], rfl, .nil⟩

theorem moreStatements_le : language DerivesStatement * language DerivesStatements ≤
    language DerivesStatements := by
  rintro _ ⟨_, ⟨d, ts, stmt, rfl, h⟩, _, ⟨d', us, body, rfl, h'⟩, rfl⟩
  exact ⟨d + d', ts ++ us, _, by simp, .cons (h.mono (by omega)) (h'.mono (by omega))⟩

/-! ### Programs -/

/-- One identifier or more, with commas between them. -/
def parameters : Language Token :=
  language fun _ => DerivesNames

theorem lastName_le : names ≤ parameters := by
  rintro _ ⟨name, rfl⟩
  exact ⟨0, [⟨.identifier name, .start⟩], _, rfl, .last⟩

theorem moreNames_le : names * (word (.mark .comma) * parameters) ≤ parameters := by
  rintro _ ⟨_, ⟨name, rfl⟩, _, ⟨_, rfl, _, ⟨d, ts, params, rfl, h⟩, rfl⟩, rfl⟩
  exact ⟨d, ⟨.identifier name, .start⟩ :: ⟨.mark .comma, .start⟩ :: ts, _, rfl, .cons h⟩

theorem function_le : names * (word (.mark .openParen) *
    (word (.mark .closeParen) + parameters * word (.mark .closeParen)) * language DerivesBlock) ≤
      language DerivesFunction := by
  rintro _ ⟨_, ⟨name, rfl⟩, _, ⟨_, ⟨_, rfl, _, rfl | ⟨_, ⟨_, ts, params, rfl, h⟩, _, rfl, rfl⟩, rfl⟩, _,
    ⟨d, us, body, rfl, h'⟩, rfl⟩, rfl⟩
  · exact ⟨d, ⟨.identifier name, .start⟩ :: ⟨.mark .openParen, .start⟩ ::
      ⟨.mark .closeParen, .start⟩ :: us, _, rfl, .empty h'⟩
  · exact ⟨d, ⟨.identifier name, .start⟩ :: ⟨.mark .openParen, .start⟩ ::
      (ts ++ ⟨.mark .closeParen, .start⟩ :: us), _, by simp, .params h h'⟩

theorem noFunction_le : 1 ≤ language DerivesFunctions := by
  rintro _ rfl
  exact ⟨0, [], [], rfl, .nil⟩

theorem moreFunctions_le : language DerivesFunction * language DerivesFunctions ≤
    language DerivesFunctions := by
  rintro _ ⟨_, ⟨d, ts, f, rfl, h⟩, _, ⟨d', us, fs, rfl, h'⟩, rfl⟩
  exact ⟨d + d', ts ++ us, _, by simp, .cons (h.mono (by omega)) (h'.mono (by omega))⟩

/-! ### No language is empty -/

/-- All of the tokens can be written. -/
def Spelled (ts : List Token) : Prop :=
  ∀ t ∈ ts, ∃ cs, t.Spells cs

/-- Some tokens that can be written are in the language. -/
def Filled (L : Language Token) : Prop :=
  ∃ ts, Spelled ts ∧ ts ∈ L

theorem Spelled.append {ts us : List Token} (hts : Spelled ts) (hus : Spelled us) : Spelled (ts ++ us) :=
  List.forall_mem_append.2 ⟨hts, hus⟩

theorem Filled.le {L M : Language Token} (hL : Filled L) (h : L ≤ M) : Filled M :=
  hL.imp fun _ ⟨hspelled, ht⟩ => ⟨hspelled, h ht⟩

theorem filled_word {t : Token} {cs : List Char} (h : t.Spells cs) : Filled (word t) :=
  ⟨[t], List.forall_mem_singleton.2 ⟨cs, h⟩, rfl⟩

@[simp] theorem filled_integer (value : Nat) : Filled (word (.integer value)) :=
  filled_word (Token.spells_numeral value)

@[simp] theorem filled_keyword (w : Keyword) : Filled (word (.keyword w)) :=
  filled_word (.keyword w)

@[simp] theorem filled_mark (m : Mark) : Filled (word (.mark m)) :=
  filled_word (.mark m)

@[simp] theorem filled_operator (op : BinaryOp) : Filled (word (.operator op)) :=
  filled_word (.operator op)

@[simp] theorem filled_one : Filled 1 :=
  ⟨[], nofun, rfl⟩

@[simp] theorem filled_names : Filled names := by
  refine (filled_word (@Token.Spells.identifier "x" (by decide) fun w => by cases w <;> decide)).le ?_
  rintro _ rfl
  exact ⟨_, rfl⟩

@[simp] theorem filled_mul {L M : Language Token} : Filled (L * M) ↔ Filled L ∧ Filled M := by
  constructor
  · rintro ⟨_, hspelled, ts, hts, us, hus, rfl⟩
    obtain ⟨hleft, hright⟩ := List.forall_mem_append.1 hspelled
    exact ⟨⟨ts, hleft, hts⟩, us, hright, hus⟩
  · rintro ⟨⟨ts, hleft, hts⟩, us, hright, hus⟩
    exact ⟨_, hleft.append hright, ts, hts, us, hus, rfl⟩

@[simp] theorem filled_add {L M : Language Token} : Filled (L + M) ↔ Filled L ∨ Filled M := by
  constructor
  · rintro ⟨ts, hspelled, hts | hts⟩
    · exact .inl ⟨ts, hspelled, hts⟩
    · exact .inr ⟨ts, hspelled, hts⟩
  · rintro (⟨ts, hspelled, hts⟩ | ⟨ts, hspelled, hts⟩)
    · exact ⟨ts, hspelled, .inl hts⟩
    · exact ⟨ts, hspelled, .inr hts⟩

@[simp] theorem filled_primary : Filled (language DerivesPrimary) := by
  refine (filled_integer 0).le (le_trans ?_ literals_le)
  rintro _ rfl
  exact ⟨0, rfl⟩

@[simp] theorem filled_unary : Filled (language DerivesUnary) :=
  filled_primary.le primary_le

@[simp] theorem filled_level : ∀ levels, Filled (language (DerivesLevel levels))
  | [] => filled_unary.le unary_le
  | _ :: levels => (filled_level levels).le operand_le

@[simp] theorem filled_expr : Filled (language DerivesExpr) :=
  (filled_level precedence).le levels_le

@[simp] theorem filled_indices : Filled (language DerivesIndices) :=
  filled_one.le noIndex_le

@[simp] theorem filled_args : Filled (language DerivesArgs) :=
  filled_expr.le lastArg_le

@[simp] theorem filled_place : Filled (language DerivesPlace) :=
  (filled_mul.2 ⟨filled_names, filled_indices⟩).le indexed_le

@[simp] theorem filled_assign : Filled (language DerivesAssign) :=
  (filled_mul.2 ⟨filled_place, filled_mul.2 ⟨filled_mark _, filled_expr⟩⟩).le assignment_le

@[simp] theorem filled_statements : Filled (language DerivesStatements) :=
  filled_one.le noStatement_le

@[simp] theorem filled_block : Filled (language DerivesBlock) :=
  (filled_mul.2 ⟨filled_mark _, filled_mul.2 ⟨filled_statements, filled_mark _⟩⟩).le braces_le

@[simp] theorem filled_statement : Filled (language DerivesStatement) :=
  filled_block.le block_le

@[simp] theorem filled_conditional : Filled (language DerivesConditional) := by
  refine Filled.le ?_ branch_le
  simp [conditions]

@[simp] theorem filled_parameters : Filled parameters :=
  filled_names.le lastName_le

@[simp] theorem filled_functions : Filled (language DerivesFunctions) :=
  filled_one.le noFunction_le

end CMinusMinus.Grammar
