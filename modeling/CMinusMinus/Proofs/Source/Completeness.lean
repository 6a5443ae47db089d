import CMinusMinus.Proofs.Source.Soundness

/-!
# What is derived, the parser reads

The parser takes the tokens of a derivation away and stops there, if what follows them cannot prolong
them: after an expression no operator, index or argument list, after a statement no `else`. The bound
on rounds has to be as large as the number of tokens, and the bound on depth larger than the budget.
-/

namespace CMinusMinus.Parser

open Grammar

/-! ## Steps of parsers -/

section Steps

variable {α β : Type} {d : Nat} {rest : List Lexeme} {loc : Loc}

theorem bind_eq {p : Parser α} {f : α → Parser β} {s s' : State} {x : α}
    {r : Except Refusal (β × State)} (hp : p s = .ok (x, s')) (hf : f x s' = r) : (p >>= f) s = r := by
  have hbind : (p >>= f) s = (p s >>= fun read => f read.1 read.2) := rfl
  rw [hbind, hp]
  exact hf

theorem ahead_eq : ahead ⟨rest, d⟩ = .ok (rest, ⟨rest, d⟩) :=
  rfl

theorem skip_eq {next : Lexeme} : skip ⟨next :: rest, d⟩ = .ok ((), ⟨rest, d⟩) :=
  rfl

theorem identifier_eq {name : String} :
    identifier ⟨⟨.identifier name, loc⟩ :: rest, d⟩ = .ok ((name, loc), ⟨rest, d⟩) :=
  rfl

theorem accept_eq {wanted : Token} :
    accept wanted ⟨⟨wanted, loc⟩ :: rest, d⟩ = .ok (true, ⟨rest, d⟩) := by
  simp [accept]

theorem accept_ne {wanted : Token} (h : ∀ next ∈ rest.head?, next.token ≠ wanted) :
    accept wanted ⟨rest, d⟩ = .ok (false, ⟨rest, d⟩) := by
  cases rest with
  | nil => rfl
  | cons next rest => simp [accept, h next rfl]

theorem mark_eq {m : Mark} : mark m ⟨⟨.mark m, loc⟩ :: rest, d⟩ = .ok ((), ⟨rest, d⟩) :=
  bind_eq accept_eq rfl

theorem nest_eq {p : Parser α} {tokens : List Lexeme} {x : α}
    (hp : p ⟨tokens, d⟩ = .ok (x, ⟨rest, d⟩)) : nest p ⟨tokens, d + 1⟩ = .ok (x, ⟨rest, d + 1⟩) :=
  bind_eq rfl (bind_eq hp rfl)

end Steps

/-! ## What follows an expression -/

/-- An expression made of the operators of the levels ends before these tokens. -/
def Follows (levels : List (List BinaryOp)) (rest : List Lexeme) : Prop :=
  ∀ next ∈ rest.head?, next.token ≠ .mark .openParen ∧ next.token ≠ .mark .openBracket ∧
    ∀ op ∈ levels.flatten, next.token ≠ .operator op

section Follows

variable {ops : List BinaryOp} {levels : List (List BinaryOp)} {rest : List Lexeme} {loc : Loc}

theorem follows_mark {m : Mark} (hparen : m ≠ .openParen) (hbracket : m ≠ .openBracket) :
    Follows levels (⟨.mark m, loc⟩ :: rest) := by
  intro next hnext
  cases hnext
  simp [hparen, hbracket]

theorem Follows.tighter (h : Follows (ops :: levels) rest) : Follows levels rest := by
  intro next hnext
  obtain ⟨hparen, hbracket, hop⟩ := h next hnext
  exact ⟨hparen, hbracket, fun op hm => hop op (by simp [hm])⟩

theorem Follows.tail (h : Follows levels rest) : Follows levels.tail rest := by
  cases levels with
  | nil => exact h
  | cons ops levels => exact h.tighter

theorem nodup_tighter (h : (ops :: levels).flatten.Nodup) : levels.flatten.Nodup := by
  rw [List.flatten_cons, List.nodup_append] at h
  exact h.2.1

/-- An operator of a level ends the expressions of the tighter levels. -/
theorem follows_operator {op : BinaryOp} (hops : (ops :: levels).flatten.Nodup) (hop : op ∈ ops) :
    Follows levels (⟨.operator op, loc⟩ :: rest) := by
  rw [List.flatten_cons, List.nodup_append] at hops
  intro next hnext
  cases hnext
  refine ⟨by simp, by simp, fun op' hm heq => ?_⟩
  cases heq
  exact hops.2.2 op hop op hm rfl

end Follows

/-! ## Levels of operators -/

section Levels

variable {rounds d : Nat} {operand : Parser Expr} {ops : List BinaryOp} {levels : List (List BinaryOp)}

theorem chain_stop {lhs : Expr} {rest : List Lexeme} (h : Follows (ops :: levels) rest) :
    chain ops operand rounds lhs ⟨rest, d⟩ = .ok (lhs, ⟨rest, d⟩) := by
  cases rounds with
  | zero => rfl
  | succ rounds =>
    refine bind_eq ahead_eq ?_
    split
    · rename_i op loc rest
      have hop : op ∉ ops := fun hm => (h _ rfl).2.2 op (by simp [hm]) rfl
      rw [if_neg hop]
      rfl
    · rfl

theorem chain_step {op : BinaryOp} (hop : op ∈ ops) {lhs rhs : Expr} {tokens rest : List Lexeme} {loc : Loc}
    (ho : operand ⟨tokens, d⟩ = .ok (rhs, ⟨rest, d⟩)) :
    chain ops operand (rounds + 1) lhs ⟨⟨.operator op, loc⟩ :: tokens, d⟩ =
      chain ops operand rounds (.binary op lhs rhs) ⟨rest, d⟩ := by
  refine bind_eq ahead_eq ?_
  simp only [if_pos hop]
  exact bind_eq skip_eq (bind_eq ho rfl)

/-- The parser of the levels has read an expression and is left before `rest`, where more operators of
the first level may follow. -/
def Reaches (rounds d : Nat) (operand : Parser Expr) (levels : List (List BinaryOp)) (tokens : List Lexeme)
    (e : Expr) (rest : List Lexeme) : Prop :=
  match levels with
  | [] => operand ⟨tokens, d⟩ = .ok (e, ⟨rest, d⟩)
  | ops :: levels =>
    ∃ left, rest.length ≤ left ∧ level rounds ops (levels.foldr (level rounds) operand) ⟨tokens, d⟩ =
      chain ops (levels.foldr (level rounds) operand) left e ⟨rest, d⟩

theorem Reaches.run {tokens rest : List Lexeme} {e : Expr} (h : Reaches rounds d operand levels tokens e rest)
    (hrest : Follows levels rest) :
    levels.foldr (level rounds) operand ⟨tokens, d⟩ = .ok (e, ⟨rest, d⟩) := by
  cases levels with
  | nil => exact h
  | cons ops levels =>
    obtain ⟨left, -, hlevel⟩ := h
    exact hlevel.trans (chain_stop hrest)

end Levels

/-! ## Expressions -/

/-- With a depth of at least `least` and rounds for all tokens, the parser takes `ts` away from the front
of tokens of which `F` holds after `ts`, and leaves the budget `d` as it is. -/
def Complete {α : Type} (least d : Nat) (F : List Lexeme → Prop) (p : Nat → Nat → Parser α)
    (ts : List Lexeme) (x : α) : Prop :=
  ∀ rounds depth rest, least ≤ depth → (ts ++ rest).length ≤ rounds → F rest →
    p rounds depth ⟨ts ++ rest, d⟩ = .ok (x, ⟨rest, d⟩)

/-- No condition on the tokens that follow. -/
abbrev Anything : List Lexeme → Prop := fun _ => True

section Lookahead

variable {rounds d : Nat} {nested : Parser Expr} {ts rest : List Lexeme}

theorem primary_eq_place {name : String} {loc : Loc}
    (h : ∀ next ∈ rest.head?, next.token ≠ .mark .openParen) :
    primary rounds nested ⟨⟨.identifier name, loc⟩ :: rest, d⟩ =
      (do
        let p ← place rounds nested
        return Expr.place p.name p.indices p.loc) ⟨⟨.identifier name, loc⟩ :: rest, d⟩ := by
  refine bind_eq ahead_eq ?_
  match rest with
  | [] => rfl
  | ⟨.mark .openParen, l⟩ :: rest => exact absurd rfl (h _ rfl)
  | ⟨.identifier _, _⟩ :: _ | ⟨.integer _, _⟩ :: _ | ⟨.keyword _, _⟩ :: _ | ⟨.operator _, _⟩ :: _ => rfl
  | ⟨.mark .closeParen, _⟩ :: _ | ⟨.mark .openBrace, _⟩ :: _ | ⟨.mark .closeBrace, _⟩ :: _
  | ⟨.mark .openBracket, _⟩ :: _ | ⟨.mark .closeBracket, _⟩ :: _ | ⟨.mark .comma, _⟩ :: _
  | ⟨.mark .semicolon, _⟩ :: _ | ⟨.mark .assign, _⟩ :: _ => rfl

theorem not_openParen_of_indices {es : List Expr} (h : DerivesIndices d ts es) (hrest : Follows [] rest) :
    ∀ next ∈ (ts ++ rest).head?, next.token ≠ .mark .openParen := by
  intro next hnext
  cases h with
  | nil => exact (hrest next hnext).1
  | cons =>
    cases hnext
    simp

end Lookahead

mutual

theorem run_expr : ∀ {d ts e}, DerivesExpr d ts e → Complete d d (Follows precedence) exprAt ts e
  | _, _, _, .levels h => by
    intro rounds depth rest hdepth hrounds hrest
    have hreaches := run_level h (by decide) rounds depth rest hdepth hrounds hrest.tighter
    exact nest_eq (hreaches.run hrest)

theorem run_level : ∀ {levels d ts e}, DerivesLevel levels d ts e → levels.flatten.Nodup →
    ∀ rounds depth rest, d < depth → (ts ++ rest).length ≤ rounds → Follows levels.tail rest →
      Reaches rounds d (unaryAt rounds depth) levels (ts ++ rest) e rest
  | _, _, _, _, .unary h => by
    intro _ rounds depth rest hdepth hrounds hrest
    exact run_unary h rounds depth rest hdepth hrounds hrest
  | _, _, _, _, .operand h => by
    intro hnodup rounds depth rest hdepth hrounds hrest
    have hreaches := run_level h (nodup_tighter hnodup) rounds depth rest hdepth hrounds hrest.tail
    exact ⟨rounds, by simp at hrounds; omega, bind_eq (hreaches.run hrest) rfl⟩
  | _, _, _, _, .binary hl hop hr => by
    intro hnodup rounds depth rest hdepth hrounds hrest
    rename_i d ops levels ts us op loc lhs rhs
    simp only [List.append_assoc, List.cons_append] at hrounds ⊢
    obtain ⟨left, hleft, hlevel⟩ := run_level hl hnodup rounds depth (⟨.operator op, loc⟩ :: (us ++ rest))
      hdepth hrounds (follows_operator hnodup hop)
    have hreaches := run_level hr (nodup_tighter hnodup) rounds depth rest hdepth
      (by simp at hrounds ⊢; omega) hrest.tail
    cases left with
    | zero => cases hleft
    | succ left =>
      exact ⟨left, by simp at hleft; omega, hlevel.trans (chain_step hop (hreaches.run hrest))⟩

theorem run_unary : ∀ {d ts e}, DerivesUnary d ts e → Complete (d + 1) d (Follows []) unaryAt ts e
  | _, _, _, .neg h => by
    intro rounds depth rest hdepth hrounds hrest
    rename_i d loc ts e
    obtain ⟨depth, rfl⟩ : ∃ more, depth = more + 1 := ⟨depth - 1, by omega⟩
    have hrun := run_unary h rounds depth rest (by omega) (by simp at hrounds ⊢; omega) hrest
    exact bind_eq accept_eq (bind_eq (nest_eq hrun) rfl)
  | _, _, _, .primary h => by
    intro rounds depth rest hdepth hrounds hrest
    obtain ⟨depth, rfl⟩ : ∃ more, depth = more + 1 := ⟨depth - 1, by omega⟩
    have hrun := run_primary h rounds depth rest (by omega) hrounds hrest
    obtain ⟨first, us, rfl, hfirst, -⟩ := h.first
    exact bind_eq (accept_ne (by simpa using hfirst)) hrun

theorem run_primary : ∀ {d ts e}, DerivesPrimary d ts e →
    Complete d d (Follows []) (fun rounds depth => primary rounds (exprAt rounds depth)) ts e
  | _, _, _, .int => by
    intro rounds depth rest hdepth hrounds hrest
    rfl
  | _, _, _, .call h => by
    intro rounds depth rest hdepth hrounds hrest
    have hrun := run_call h rounds depth rest hdepth hrounds trivial
    obtain ⟨name, loc, l, us, rfl⟩ := h.first
    exact bind_eq ahead_eq (bind_eq hrun rfl)
  | _, _, _, .place h => by
    intro rounds depth rest hdepth hrounds hrest
    have hrun := run_place h rounds depth rest hdepth hrounds hrest
    cases h with
    | indexed hi =>
      exact (primary_eq_place (not_openParen_of_indices hi hrest)).trans (bind_eq hrun rfl)
  | _, _, _, .parenthesized h => by
    intro rounds depth rest hdepth hrounds hrest
    rename_i l ts r
    simp only [List.append_assoc, List.cons_append, List.nil_append] at hrounds ⊢
    have hrun := run_expr h rounds depth (⟨.mark .closeParen, r⟩ :: rest) hdepth
      (by simp at hrounds ⊢; omega) (follows_mark (by decide) (by decide))
    exact bind_eq ahead_eq (bind_eq skip_eq (bind_eq hrun (bind_eq mark_eq rfl)))

theorem run_place : ∀ {d ts p}, DerivesPlace d ts p →
    Complete d d (Follows []) (fun rounds depth => place rounds (exprAt rounds depth)) ts p
  | _, _, _, .indexed h => by
    intro rounds depth rest hdepth hrounds hrest
    have hrun := run_indices h rounds #[] (by simp at hrounds; omega) rounds depth rest hdepth
      (by simp at hrounds ⊢; omega) hrest
    exact bind_eq identifier_eq (bind_eq hrun rfl)

theorem run_indices : ∀ {d ts es}, DerivesIndices d ts es → ∀ left read, ts.length ≤ left →
    Complete d d (Follows []) (fun rounds depth => indices (exprAt rounds depth) left read) ts
      (read.toList ++ es)
  | _, _, _, .nil => by
    intro left read hleft rounds depth rest hdepth hrounds hrest
    rw [List.append_nil]
    cases left with
    | zero => rfl
    | succ left => exact bind_eq (accept_ne fun next hnext => (hrest next hnext).2.1) rfl
  | _, _, _, .cons hindex h => by
    intro left read hleft rounds depth rest hdepth hrounds hrest
    rename_i d l ts index r us es
    simp only [List.append_assoc, List.cons_append] at hrounds ⊢
    cases left with
    | zero => cases hleft
    | succ left =>
      have hrun := run_expr hindex rounds depth (⟨.mark .closeBracket, r⟩ :: (us ++ rest)) hdepth
        (by simp at hrounds ⊢; omega) (follows_mark (by decide) (by decide))
      have hmore := run_indices h left (read.push index) (by simp at hleft; omega) rounds depth rest hdepth
        (by simp at hrounds ⊢; omega) hrest
      rw [Array.toList_push, List.append_assoc] at hmore
      exact bind_eq accept_eq (bind_eq hrun (bind_eq mark_eq hmore))

theorem run_call : ∀ {d ts c}, DerivesCall d ts c →
    Complete d d Anything (fun rounds depth => call rounds (exprAt rounds depth)) ts c
  | _, _, _, .empty => by
    intro rounds depth rest hdepth hrounds hrest
    exact bind_eq identifier_eq (bind_eq (bind_eq mark_eq (bind_eq accept_eq rfl)) rfl)
  | _, _, _, .args h => by
    intro rounds depth rest hdepth hrounds hrest
    rename_i d name loc l ts args r
    have hrun := run_args h rounds #[] r (by simp at hrounds; omega) rounds depth rest hdepth
      (by simp at hrounds ⊢; omega) hrest
    obtain ⟨first, us, rfl, hfirst⟩ := h.first
    exact bind_eq identifier_eq
      (bind_eq (bind_eq mark_eq (bind_eq (accept_ne (by simpa using hfirst)) hrun)) rfl)

theorem run_args : ∀ {d ts args}, DerivesArgs d ts args → ∀ left read r, ts.length < left →
    Complete d d Anything (fun rounds depth => items (exprAt rounds depth) left read)
      (ts ++ [⟨.mark .closeParen, r⟩]) (read.toList ++ args)
  | _, _, _, .last harg => by
    intro left read r hleft rounds depth rest hdepth hrounds hrest
    rename_i d ts arg
    simp only [List.append_assoc, List.cons_append, List.nil_append] at hrounds ⊢
    cases left with
    | zero => cases hleft
    | succ left =>
      have hrun := run_expr harg rounds depth (⟨.mark .closeParen, r⟩ :: rest) hdepth hrounds
        (follows_mark (by decide) (by decide))
      rw [← Array.toList_push]
      exact bind_eq hrun (bind_eq accept_eq rfl)
  | _, _, _, .cons harg h => by
    intro left read r hleft rounds depth rest hdepth hrounds hrest
    rename_i d ts arg comma us args
    simp only [List.append_assoc, List.cons_append, List.nil_append] at hrounds ⊢
    cases left with
    | zero => cases hleft
    | succ left =>
      have hrun := run_expr harg rounds depth _ hdepth hrounds (follows_mark (by decide) (by decide))
      have hmore := run_args h left (read.push arg) r (by simp at hleft; omega) rounds depth rest hdepth
        (by simp at hrounds ⊢; omega) hrest
      simp only [Array.toList_push, List.append_assoc, List.cons_append, List.nil_append] at hmore
      exact bind_eq hrun (bind_eq (accept_ne (by simp)) (bind_eq mark_eq hmore))

end

theorem run_assign {d : Nat} {ts : List Lexeme} {a : Assign} (h : DerivesAssign d ts a) :
    Complete d d (Follows precedence) (fun rounds depth => assignment rounds (exprAt rounds depth)) ts a := by
  intro rounds depth rest hdepth hrounds hrest
  cases h with
  | assign htarget hvalue =>
    rename_i ts target loc us value
    simp only [List.append_assoc, List.cons_append] at hrounds ⊢
    have hplace := run_place htarget rounds depth (⟨.mark .assign, loc⟩ :: (us ++ rest)) hdepth hrounds
      (follows_mark (by decide) (by decide))
    have hrun := run_expr hvalue rounds depth rest hdepth (by simp at hrounds ⊢; omega) hrest
    exact bind_eq hplace (bind_eq mark_eq (bind_eq hrun rfl))

/-! ## Statements -/

/-- No `else` follows. -/
def NoElse (rest : List Lexeme) : Prop :=
  ∀ next ∈ rest.head?, next.token ≠ .keyword .elseWord

section Dispatch

variable {α : Type} {rounds d : Nat} {expr : Parser Expr} {nested : Parser Stmt} {rest : List Lexeme}

theorem statement_eq_assign {name : String} {loc : Loc}
    (h : ∀ next ∈ rest.head?, next.token ≠ .mark .openParen) :
    statement rounds expr nested ⟨⟨.identifier name, loc⟩ :: rest, d⟩ =
      (do return Stmt.assign (← ended (assignment rounds expr))) ⟨⟨.identifier name, loc⟩ :: rest, d⟩ := by
  refine bind_eq ahead_eq ?_
  match rest with
  | [] => rfl
  | ⟨.mark .openParen, l⟩ :: rest => exact absurd rfl (h _ rfl)
  | ⟨.identifier _, _⟩ :: _ | ⟨.integer _, _⟩ :: _ | ⟨.keyword _, _⟩ :: _ | ⟨.operator _, _⟩ :: _ => rfl
  | ⟨.mark .closeParen, _⟩ :: _ | ⟨.mark .openBrace, _⟩ :: _ | ⟨.mark .closeBrace, _⟩ :: _
  | ⟨.mark .openBracket, _⟩ :: _ | ⟨.mark .closeBracket, _⟩ :: _ | ⟨.mark .comma, _⟩ :: _
  | ⟨.mark .semicolon, _⟩ :: _ | ⟨.mark .assign, _⟩ :: _ => rfl

theorem ended_eq {content : Parser α} {tokens : List Lexeme} {x : α} {r : Loc}
    (h : content ⟨tokens, d⟩ = .ok (x, ⟨⟨.mark .semicolon, r⟩ :: rest, d⟩)) :
    ended content ⟨tokens, d⟩ = .ok (x, ⟨rest, d⟩) :=
  bind_eq h (bind_eq mark_eq rfl)

theorem condition_eq {tokens : List Lexeme} {e : Expr} {l r : Loc}
    (h : expr ⟨tokens, d⟩ = .ok (e, ⟨⟨.mark .closeParen, r⟩ :: rest, d⟩)) :
    condition expr ⟨⟨.mark .openParen, l⟩ :: tokens, d⟩ = .ok (e, ⟨rest, d⟩) :=
  bind_eq mark_eq (bind_eq h (bind_eq mark_eq rfl))

theorem arrayDeclaration_eq {tokens : List Lexeme} {name : String} {e : Expr} {loc l r : Loc}
    (h : expr ⟨tokens, d⟩ = .ok (e, ⟨⟨.mark .closeBracket, r⟩ :: rest, d⟩)) :
    arrayDeclaration expr ⟨⟨.identifier name, loc⟩ :: ⟨.mark .openBracket, l⟩ :: tokens, d⟩ =
      .ok (.array name e, ⟨rest, d⟩) :=
  bind_eq identifier_eq (bind_eq mark_eq (bind_eq h (bind_eq mark_eq rfl)))

theorem noElse_of_statements {body : Block} {ts : List Lexeme} {r : Loc} (h : DerivesStatements d ts body) :
    NoElse (ts ++ ⟨.mark .closeBrace, r⟩ :: rest) := by
  cases h with
  | nil => simp [NoElse]
  | cons hs =>
    obtain ⟨first, us, rfl, -, hfirst⟩ := hs.first
    simpa [NoElse] using hfirst

end Dispatch

mutual

theorem run_statement : ∀ {d ts stmt}, DerivesStatement d ts stmt →
    Complete (d + 1) d NoElse statementAt ts stmt
  | _, _, _, .print he => by
    intro rounds depth rest hdepth hrounds hrest
    obtain ⟨depth, rfl⟩ : ∃ more, depth = more + 1 := ⟨depth - 1, by omega⟩
    rename_i d l ts e r
    simp only [List.append_assoc, List.cons_append, List.nil_append] at hrounds ⊢
    have hrun := run_expr he rounds depth (⟨.mark .semicolon, r⟩ :: rest) (by omega)
      (by simp at hrounds ⊢; omega) (follows_mark (by decide) (by decide))
    exact bind_eq ahead_eq (bind_eq skip_eq (bind_eq (ended_eq hrun) rfl))
  | _, _, _, .ret he => by
    intro rounds depth rest hdepth hrounds hrest
    obtain ⟨depth, rfl⟩ : ∃ more, depth = more + 1 := ⟨depth - 1, by omega⟩
    rename_i d l ts e r
    simp only [List.append_assoc, List.cons_append, List.nil_append] at hrounds ⊢
    have hrun := run_expr he rounds depth (⟨.mark .semicolon, r⟩ :: rest) (by omega)
      (by simp at hrounds ⊢; omega) (follows_mark (by decide) (by decide))
    exact bind_eq ahead_eq (bind_eq skip_eq (bind_eq (ended_eq hrun) rfl))
  | _, _, _, .array he => by
    intro rounds depth rest hdepth hrounds hrest
    obtain ⟨depth, rfl⟩ : ∃ more, depth = more + 1 := ⟨depth - 1, by omega⟩
    rename_i d l name loc l' ts e r r'
    simp only [List.append_assoc, List.cons_append, List.nil_append] at hrounds ⊢
    have hrun := run_expr he rounds depth (⟨.mark .closeBracket, r⟩ :: ⟨.mark .semicolon, r'⟩ :: rest)
      (by omega) (by simp at hrounds ⊢; omega) (follows_mark (by decide) (by decide))
    exact bind_eq ahead_eq (bind_eq skip_eq (ended_eq (arrayDeclaration_eq hrun)))
  | _, _, _, .conditional hc => by
    intro rounds depth rest hdepth hrounds hrest
    obtain ⟨depth, rfl⟩ : ∃ more, depth = more + 1 := ⟨depth - 1, by omega⟩
    obtain ⟨l, us, rfl, hrun⟩ := run_conditional hc
    have hrun := hrun rounds depth rest (by omega) (by simp at hrounds ⊢; omega) hrest
    exact bind_eq ahead_eq (bind_eq skip_eq hrun)
  | _, _, _, .whileLoop he hb => by
    intro rounds depth rest hdepth hrounds hrest
    obtain ⟨depth, rfl⟩ : ∃ more, depth = more + 1 := ⟨depth - 1, by omega⟩
    rename_i d l l' ts test r us body
    simp only [List.append_assoc, List.cons_append] at hrounds ⊢
    have htest := run_expr he rounds depth (⟨.mark .closeParen, r⟩ :: (us ++ rest)) (by omega)
      (by simp at hrounds ⊢; omega) (follows_mark (by decide) (by decide))
    have hbody := run_block hb rounds depth rest (by omega) (by simp at hrounds ⊢; omega) trivial
    exact bind_eq ahead_eq (bind_eq skip_eq (bind_eq (condition_eq htest) (bind_eq hbody rfl)))
  | _, _, _, .forLoop hinit he hstep hb => by
    intro rounds depth rest hdepth hrounds hrest
    obtain ⟨depth, rfl⟩ : ∃ more, depth = more + 1 := ⟨depth - 1, by omega⟩
    rename_i d l l' ts init r us test r' vs step r'' ws body
    simp only [List.append_assoc, List.cons_append] at hrounds ⊢
    have hfirst := run_assign hinit rounds depth (⟨.mark .semicolon, r⟩ :: (us ++ ⟨.mark .semicolon, r'⟩ ::
      (vs ++ ⟨.mark .closeParen, r''⟩ :: (ws ++ rest)))) (by omega) (by simp at hrounds ⊢; omega)
      (follows_mark (by decide) (by decide))
    have htest := run_expr he rounds depth (⟨.mark .semicolon, r'⟩ :: (vs ++ ⟨.mark .closeParen, r''⟩ ::
      (ws ++ rest))) (by omega) (by simp at hrounds ⊢; omega) (follows_mark (by decide) (by decide))
    have hlast := run_assign hstep rounds depth (⟨.mark .closeParen, r''⟩ :: (ws ++ rest)) (by omega)
      (by simp at hrounds ⊢; omega) (follows_mark (by decide) (by decide))
    have hbody := run_block hb rounds depth rest (by omega) (by simp at hrounds ⊢; omega) trivial
    refine bind_eq ahead_eq (bind_eq skip_eq (bind_eq mark_eq ?_))
    refine bind_eq (ended_eq hfirst) (bind_eq (ended_eq htest) ?_)
    exact bind_eq hlast (bind_eq mark_eq (bind_eq hbody rfl))
  | _, _, _, .assign ha => by
    intro rounds depth rest hdepth hrounds hrest
    obtain ⟨depth, rfl⟩ : ∃ more, depth = more + 1 := ⟨depth - 1, by omega⟩
    rename_i d ts a r
    simp only [List.append_assoc, List.cons_append, List.nil_append] at hrounds ⊢
    have hrun := run_assign ha rounds depth (⟨.mark .semicolon, r⟩ :: rest) (by omega) hrounds
      (follows_mark (by decide) (by decide))
    obtain ⟨name, loc, next, us, rfl, hnext⟩ := ha.first
    exact (statement_eq_assign (by simpa using hnext)).trans (bind_eq (ended_eq hrun) rfl)
  | _, _, _, .call hc => by
    intro rounds depth rest hdepth hrounds hrest
    obtain ⟨depth, rfl⟩ : ∃ more, depth = more + 1 := ⟨depth - 1, by omega⟩
    rename_i d ts c r
    simp only [List.append_assoc, List.cons_append, List.nil_append] at hrounds ⊢
    have hrun := run_call hc rounds depth (⟨.mark .semicolon, r⟩ :: rest) (by omega) hrounds trivial
    obtain ⟨name, loc, l, us, rfl⟩ := hc.first
    exact bind_eq ahead_eq (bind_eq (ended_eq hrun) rfl)
  | _, _, _, .block hb => by
    intro rounds depth rest hdepth hrounds hrest
    obtain ⟨depth, rfl⟩ : ∃ more, depth = more + 1 := ⟨depth - 1, by omega⟩
    have hrun := run_block hb rounds depth rest (by omega) hrounds trivial
    obtain ⟨l, us, rfl⟩ := hb.first
    exact bind_eq ahead_eq (bind_eq hrun rfl)

theorem run_conditional : ∀ {d ts stmt}, DerivesConditional d ts stmt →
    ∃ l us, ts = ⟨.keyword .ifWord, l⟩ :: us ∧
      Complete d d NoElse (fun rounds depth =>
        conditional rounds (exprAt rounds depth) (statementAt rounds depth)) us stmt
  | _, _, _, .noElse he hyes => by
    refine ⟨_, _, rfl, ?_⟩
    intro rounds depth rest hdepth hrounds hrest
    rename_i d l l' ts test r us yes
    simp only [List.append_assoc, List.cons_append] at hrounds ⊢
    have htest := run_expr he rounds depth (⟨.mark .closeParen, r⟩ :: (us ++ rest)) hdepth
      (by simp at hrounds ⊢; omega) (follows_mark (by decide) (by decide))
    have hblock := run_block hyes rounds depth rest hdepth (by simp at hrounds ⊢; omega) trivial
    exact bind_eq (condition_eq htest) (bind_eq hblock (bind_eq (accept_ne hrest) rfl))
  | _, _, _, .elseBlock he hyes hno => by
    refine ⟨_, _, rfl, ?_⟩
    intro rounds depth rest hdepth hrounds hrest
    rename_i d l l' ts test r us yes loc vs no
    simp only [List.append_assoc, List.cons_append] at hrounds ⊢
    have htest := run_expr he rounds depth (⟨.mark .closeParen, r⟩ :: (us ++ ⟨.keyword .elseWord, loc⟩ ::
      (vs ++ rest))) hdepth (by simp at hrounds ⊢; omega) (follows_mark (by decide) (by decide))
    have hblock := run_block hyes rounds depth (⟨.keyword .elseWord, loc⟩ :: (vs ++ rest)) hdepth
      (by simp at hrounds ⊢; omega) trivial
    have hlast := run_block hno rounds depth rest hdepth (by simp at hrounds ⊢; omega) trivial
    obtain ⟨l'', ws, rfl⟩ := hno.first
    refine bind_eq (condition_eq htest) (bind_eq hblock (bind_eq accept_eq ?_))
    exact bind_eq ahead_eq (bind_eq hlast rfl)
  | _, _, _, .elseIf he hyes hc => by
    refine ⟨_, _, rfl, ?_⟩
    intro rounds depth rest hdepth hrounds hrest
    rename_i d l l' ts test r us yes loc vs stmt
    obtain ⟨depth, rfl⟩ : ∃ more, depth = more + 1 := ⟨depth - 1, by omega⟩
    simp only [List.append_assoc, List.cons_append] at hrounds ⊢
    have htest := run_expr he rounds (depth + 1) (⟨.mark .closeParen, r⟩ :: (us ++
      ⟨.keyword .elseWord, loc⟩ :: (vs ++ rest))) hdepth (by simp at hrounds ⊢; omega)
      (follows_mark (by decide) (by decide))
    have hblock := run_block hyes rounds (depth + 1) (⟨.keyword .elseWord, loc⟩ :: (vs ++ rest)) hdepth
      (by simp at hrounds ⊢; omega) trivial
    obtain ⟨l'', ws, rfl, hrun⟩ := run_conditional hc
    have hlast := hrun rounds depth rest (by omega) (by simp at hrounds ⊢; omega) hrest
    refine bind_eq (condition_eq htest) (bind_eq hblock (bind_eq accept_eq ?_))
    exact bind_eq ahead_eq (bind_eq (nest_eq (bind_eq ahead_eq (bind_eq skip_eq hlast))) rfl)

theorem run_block : ∀ {d ts body}, DerivesBlock d ts body →
    Complete d d Anything (fun rounds depth => block rounds (statementAt rounds depth)) ts body
  | _, _, _, .braces h => by
    intro rounds depth rest hdepth hrounds hrest
    rename_i d l ts body r
    have hrun := run_statements h rounds #[] r (by simp at hrounds; omega) rounds depth rest hdepth
      (by simp at hrounds ⊢; omega) hrest
    exact bind_eq mark_eq (nest_eq hrun)

theorem run_statements : ∀ {d ts body}, DerivesStatements d ts body → ∀ left read r, ts.length < left →
    Complete (d + 1) d Anything (fun rounds depth => closing (statementAt rounds depth) left read)
      (ts ++ [⟨.mark .closeBrace, r⟩]) (read.toList ++ body)
  | _, _, _, .nil => by
    intro left read r hleft rounds depth rest hdepth hrounds hrest
    rw [List.append_nil]
    cases left with
    | zero => cases hleft
    | succ left => exact bind_eq accept_eq rfl
  | _, _, _, .cons hs h => by
    intro left read r hleft rounds depth rest hdepth hrounds hrest
    rename_i d ts stmt us body
    simp only [List.append_assoc, List.cons_append, List.nil_append] at hrounds ⊢
    have hrun := run_statement hs rounds depth (us ++ ⟨.mark .closeBrace, r⟩ :: rest) hdepth hrounds
      (noElse_of_statements h)
    obtain ⟨first, vs, rfl, hfirst, -⟩ := hs.first
    cases left with
    | zero => cases hleft
    | succ left =>
      have hmore := run_statements h left (read.push stmt) r (by simp at hleft; omega) rounds depth rest
        hdepth (by simp at hrounds ⊢; omega) hrest
      simp only [Array.toList_push, List.append_assoc, List.cons_append, List.nil_append] at hmore
      exact bind_eq (accept_ne (by simpa using hfirst)) (bind_eq ahead_eq (bind_eq hrun hmore))

end

/-! ## Programs -/

theorem run_names {ts : List Lexeme} {names : List String} (h : DerivesNames ts names) (d : Nat) (r : Loc)
    (rest : List Lexeme) (left : Nat) (read : Array (String × Loc)) (hleft : ts.length < left) :
    ∃ params,
      items identifier left read ⟨ts ++ ⟨.mark .closeParen, r⟩ :: rest, d⟩ = .ok (params, ⟨rest, d⟩) ∧
      params.map Prod.fst = read.toList.map Prod.fst ++ names := by
  induction h generalizing left read with
  | last =>
    rename_i name loc
    cases left with
    | zero => cases hleft
    | succ left => exact ⟨_, bind_eq identifier_eq (bind_eq accept_eq rfl), by simp⟩
  | cons h ih =>
    rename_i name loc comma ts names
    cases left with
    | zero => cases hleft
    | succ left =>
      obtain ⟨params, hrun, hparams⟩ := ih left (read.push (name, loc)) (by simp at hleft; omega)
      refine ⟨params, ?_, by simpa using hparams⟩
      exact bind_eq identifier_eq (bind_eq (accept_ne (by simp)) (bind_eq mark_eq hrun))

/-- Reads a function that may nest to any depth; programs are read with `maxNesting`. -/
def functionAt (rounds depth : Nat) : Parser Function := do
  let (name, loc) ← identifier
  let params ← parenthesized rounds identifier
  let body ← block rounds (statementAt rounds depth)
  return ⟨name, params.map Prod.fst, body, loc⟩

def functionsAt (bound depth : Nat) : Nat → Array Function → Parser (List Function)
  | 0, read => return read.toList
  | rounds + 1, read => do
    if (← ahead).isEmpty then
      return read.toList
    else
      functionsAt bound depth rounds (read.push (← functionAt bound depth))

theorem functions_eq (bound rounds : Nat) (read : Array Function) :
    functions bound rounds read = functionsAt bound maxNesting rounds read := by
  induction rounds generalizing read with
  | zero => rfl
  | succ rounds ih =>
    rw [functions, functionsAt]
    simp only [ih]
    rfl

theorem run_functionAt {d depth : Nat} {ts : List Lexeme} {f : Function} (h : DerivesFunction d ts f)
    (hd : d ≤ depth) (rounds : Nat) (rest : List Lexeme) (hrounds : (ts ++ rest).length ≤ rounds) :
    functionAt rounds depth ⟨ts ++ rest, d⟩ = .ok (f, ⟨rest, d⟩) := by
  cases h with
  | empty hb =>
    have hbody := run_block hb rounds depth rest hd (by simp at hrounds ⊢; omega) trivial
    refine bind_eq identifier_eq (bind_eq (bind_eq mark_eq (bind_eq accept_eq rfl)) ?_)
    exact bind_eq hbody rfl
  | params hp hb =>
    rename_i name loc l ts params r us body
    simp only [List.append_assoc, List.cons_append] at hrounds ⊢
    obtain ⟨read, hrun, hread⟩ := run_names hp d r (us ++ rest) rounds #[] (by simp at hrounds; omega)
    have hbody := run_block hb rounds depth rest hd (by simp at hrounds ⊢; omega) trivial
    obtain ⟨name', loc', vs, rfl⟩ := hp.first
    refine bind_eq identifier_eq (bind_eq (bind_eq mark_eq (bind_eq (accept_ne (by simp)) hrun)) ?_)
    refine bind_eq hbody ?_
    simp only [List.nil_append, List.map_nil] at hread
    rw [hread]
    rfl

theorem run_functionsAt {d depth bound : Nat} {ts : List Lexeme} {fs : List Function}
    (h : DerivesFunctions d ts fs) (hd : d ≤ depth) (hbound : ts.length ≤ bound) (left : Nat)
    (read : Array Function) (hleft : ts.length ≤ left) :
    functionsAt bound depth left read ⟨ts, d⟩ = .ok (read.toList ++ fs, ⟨[], d⟩) := by
  induction h generalizing left read with
  | nil =>
    rw [List.append_nil]
    cases left <;> rfl
  | cons hf h ih =>
    rename_i ts f us fs
    have hpos : 0 < ts.length := by cases hf <;> simp
    rw [List.length_append] at hbound hleft
    obtain ⟨left, rfl⟩ : ∃ more, left = more + 1 := ⟨left - 1, by omega⟩
    have hrun := run_functionAt hf hd bound us (by simpa using hbound)
    have hmore := ih (by omega) left (read.push f) (by omega)
    rw [Array.toList_push, List.append_assoc] at hmore
    refine bind_eq ahead_eq ?_
    rw [if_neg (by cases ts <;> simp at hpos ⊢)]
    exact bind_eq hrun hmore

theorem program_complete {tokens : List Lexeme} {tree : Tree} (h : DerivesProgram maxNesting tokens tree) :
    program tokens = .ok tree := by
  have hrun := run_functionsAt h (Nat.le_refl _) (Nat.le_refl _) tokens.length #[] (Nat.le_refl _)
  unfold program
  rw [functions_eq, hrun]
  rfl

/-! ## The language of the parser -/

/-- Where the parser succeeds, it leaves the budget that it found. -/
def Restores {α : Type} (p : Parser α) : Prop :=
  ∀ s x s', p s = .ok (x, s') → s'.budget = s.budget

theorem restores_of_sound {α : Type} {T : Nat → List Lexeme → α → Prop} {p : Parser α}
    (h : ∀ d, Sound d (T d) p) : Restores p := by
  intro s x s' hrun
  obtain ⟨ts, rest, -, rfl, -⟩ := h s.budget s.rest x s' hrun
  rfl

/-- The parser reads a tree from the tokens that derive it with nesting of at most 200, refuses all
others, and every parser for a part of a program leaves the budget that it found. -/
theorem program_reads_grammar (tokens : List Lexeme) :
    (∀ tree, program tokens = .ok tree ↔ DerivesProgram 200 tokens tree) ∧
    ((¬ ∃ tree, DerivesProgram 200 tokens tree) → ∃ refusal, program tokens = .error refusal) ∧
    ∀ rounds depth,
      Restores (function rounds) ∧
      Restores (block rounds (statementAt rounds depth)) ∧
      Restores (statementAt rounds depth) ∧
      Restores (conditional rounds (exprAt rounds depth) (statementAt rounds depth)) ∧
      Restores (assignment rounds (exprAt rounds depth)) ∧
      Restores (place rounds (exprAt rounds depth)) ∧
      Restores (call rounds (exprAt rounds depth)) ∧
      Restores (exprAt rounds depth) ∧
      (∀ levels, Restores (List.foldr (level rounds) (unaryAt rounds depth) levels)) ∧
      Restores (unaryAt rounds depth) ∧
      Restores (primary rounds (exprAt rounds depth)) := by
  refine ⟨fun tree => ⟨program_sound, program_complete⟩, fun hnone => ?_, fun rounds depth => ?_⟩
  · cases h : program tokens with
    | ok tree => exact absurd ⟨tree, program_sound h⟩ hnone
    | error refusal => exact ⟨refusal, rfl⟩
  · have hexpr := sound_exprAt rounds depth
    have hstatement := sound_statementAt rounds depth
    have hunary := sound_unaryAt rounds depth
    exact ⟨restores_of_sound (sound_function rounds),
      restores_of_sound (sound_block rounds hstatement),
      restores_of_sound hstatement,
      restores_of_sound fun d => sound_conditional rounds (hexpr d) hstatement,
      restores_of_sound fun d => sound_assignment rounds (hexpr d),
      restores_of_sound fun d => sound_place rounds (hexpr d),
      restores_of_sound fun d => sound_call rounds (hexpr d),
      restores_of_sound hexpr,
      fun levels => restores_of_sound fun d => sound_levels rounds (hunary d) levels,
      restores_of_sound hunary,
      restores_of_sound fun d => sound_primary rounds (hexpr d)⟩

end CMinusMinus.Parser
