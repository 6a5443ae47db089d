import CMinusMinus.Proofs.Source.Grammar
import CMinusMinus.Source.Parser
import Mathlib.Tactic.Common

/-!
# What the parser reads is derived

Where a parser succeeds, the tokens that it took away derive the value that it read, within the budget
that it started with, and it leaves that budget as it was. No bound on rounds or on depth is needed for
this.
-/

namespace CMinusMinus.Parser

open Grammar

/-! ## Runs of parsers -/

section Runs

variable {α β : Type}

theorem bind_ok {p : Parser α} {f : α → Parser β} {s s'' : State} {y : β}
    (h : (p >>= f) s = .ok (y, s'')) : ∃ x s', p s = .ok (x, s') ∧ f x s' = .ok (y, s'') := by
  have hbind : (p >>= f) s = (p s >>= fun read => f read.1 read.2) := rfl
  rw [hbind] at h
  cases hp : p s with
  | error refusal =>
    rw [hp] at h
    cases h
  | ok read =>
    rw [hp] at h
    exact ⟨read.1, read.2, rfl, h⟩

theorem pure_ok {x y : α} {s s' : State} (h : (pure x : Parser α) s = .ok (y, s')) : y = x ∧ s' = s := by
  cases h
  exact ⟨rfl, rfl⟩

theorem ahead_ok {s s' : State} {tokens : List Lexeme} (h : ahead s = .ok (tokens, s')) :
    tokens = s.rest ∧ s' = s := by
  cases h
  exact ⟨rfl, rfl⟩

variable {d : Nat} {tokens : List Lexeme} {s : State}

theorem accept_ok {wanted : Token} {found : Bool} (h : accept wanted ⟨tokens, d⟩ = .ok (found, s)) :
    (found = true ∧ ∃ loc rest, tokens = ⟨wanted, loc⟩ :: rest ∧ s = ⟨rest, d⟩) ∨
      (found = false ∧ s = ⟨tokens, d⟩) := by
  cases tokens with
  | nil =>
    cases h
    exact .inr ⟨rfl, rfl⟩
  | cons next rest =>
    simp only [accept] at h
    split at h
    · rename_i hnext
      cases h
      exact .inl ⟨rfl, next.loc, rest, by rw [← hnext], rfl⟩
    · cases h
      exact .inr ⟨rfl, rfl⟩

theorem mark_ok {m : Mark} {u : Unit} (h : mark m ⟨tokens, d⟩ = .ok (u, s)) :
    ∃ loc rest, tokens = ⟨.mark m, loc⟩ :: rest ∧ s = ⟨rest, d⟩ := by
  obtain ⟨found, s', hfound, h⟩ := bind_ok h
  rcases accept_ok hfound with ⟨rfl, loc, rest, htokens, rfl⟩ | ⟨rfl, rfl⟩
  · cases h
    exact ⟨loc, rest, htokens, rfl⟩
  · cases h

theorem identifier_ok {read : String × Loc} (h : identifier ⟨tokens, d⟩ = .ok (read, s)) :
    ∃ rest, tokens = ⟨.identifier read.1, read.2⟩ :: rest ∧ s = ⟨rest, d⟩ := by
  unfold identifier at h
  split at h
  · rename_i name loc rest budget hs
    cases hs
    cases h
    exact ⟨rest, rfl, rfl⟩
  · cases h

theorem skip_ok {u : Unit} {next : Lexeme} {rest : List Lexeme}
    (h : skip ⟨next :: rest, d⟩ = .ok (u, s)) : s = ⟨rest, d⟩ := by
  cases h
  rfl

end Runs

/-! ## Soundness -/

/-- What the parser takes away from the front of any tokens derives, in the sense of `T`, what it reads;
and the budget is `d` again. -/
def Sound {α : Type} (d : Nat) (T : List Lexeme → α → Prop) (p : Parser α) : Prop :=
  ∀ tokens x s, p ⟨tokens, d⟩ = .ok (x, s) → ∃ ts rest, tokens = ts ++ rest ∧ s = ⟨rest, d⟩ ∧ T ts x

section Nesting

variable {α : Type} {T : Nat → List Lexeme → α → Prop} {p : Parser α}

/-- What `T` holds of with one level less. -/
def Inside (T : Nat → List Lexeme → α → Prop) (d : Nat) (ts : List Lexeme) (x : α) : Prop :=
  ∃ inner, d = inner + 1 ∧ T inner ts x

theorem sound_nest (hp : ∀ d, Sound d (T d) p) (d : Nat) : Sound d (Inside T d) (nest p) := by
  intro tokens x s h
  obtain ⟨u, s₁, h₁, k₁⟩ := bind_ok h
  cases d with
  | zero => cases h₁
  | succ inner =>
    cases h₁
    obtain ⟨y, s₂, h₂, k₂⟩ := bind_ok k₁
    obtain ⟨ts, rest, rfl, rfl, hT⟩ := hp inner tokens y s₂ h₂
    obtain ⟨u', s₃, h₃, k₃⟩ := bind_ok k₂
    cases h₃
    obtain ⟨rfl, rfl⟩ := pure_ok k₃
    exact ⟨ts, rest, rfl, rfl, inner, rfl, hT⟩

end Nesting

/-! ## Expressions -/

section Expressions

variable {d : Nat} {nested negated operand : Parser Expr} (rounds : Nat)

section Nested

variable (hn : Sound d (DerivesExpr d) nested)
include hn

theorem sound_indices (read : Array Expr) :
    Sound d (fun ts indices => ∃ es, DerivesIndices d ts es ∧ indices = read.toList ++ es)
      (indices nested rounds read) := by
  intro tokens x s h
  induction rounds generalizing read tokens with
  | zero =>
    obtain ⟨rfl, rfl⟩ := pure_ok h
    exact ⟨[], tokens, rfl, rfl, [], .nil, by simp⟩
  | succ rounds ih =>
    obtain ⟨found, s₁, h₁, k₁⟩ := bind_ok h
    rcases accept_ok h₁ with ⟨rfl, l, rest, rfl, rfl⟩ | ⟨rfl, rfl⟩
    · obtain ⟨index, s₂, h₂, k₂⟩ := bind_ok k₁
      obtain ⟨ts, rest, rfl, rfl, hindex⟩ := hn _ _ _ h₂
      obtain ⟨u, s₃, h₃, k₃⟩ := bind_ok k₂
      obtain ⟨r, rest, rfl, rfl⟩ := mark_ok h₃
      obtain ⟨us, rest, rfl, rfl, es, hes, rfl⟩ := ih _ _ k₃
      exact ⟨⟨.mark .openBracket, l⟩ :: (ts ++ ⟨.mark .closeBracket, r⟩ :: us), rest, by simp, rfl,
        index :: es, .cons hindex hes, by simp⟩
    · obtain ⟨rfl, rfl⟩ := pure_ok k₁
      exact ⟨[], tokens, rfl, rfl, [], .nil, by simp⟩

theorem sound_place : Sound d (DerivesPlace d) (place rounds nested) := by
  intro tokens x s h
  obtain ⟨⟨name, loc⟩, s₁, h₁, k₁⟩ := bind_ok h
  obtain ⟨rest, rfl, rfl⟩ := identifier_ok h₁
  obtain ⟨es, s₂, h₂, k₂⟩ := bind_ok k₁
  obtain ⟨ts, rest, rfl, rfl, es, hes, rfl⟩ := sound_indices rounds hn #[] _ _ _ h₂
  obtain ⟨rfl, rfl⟩ := pure_ok k₂
  exact ⟨_, rest, rfl, rfl, .indexed hes⟩

theorem sound_args (read : Array Expr) :
    Sound d (fun ts args => ∃ es us r, ts = us ++ [⟨.mark .closeParen, r⟩] ∧ DerivesArgs d us es ∧
      args = read.toList ++ es) (items nested rounds read) := by
  intro tokens x s h
  induction rounds generalizing read tokens with
  | zero => cases h
  | succ rounds ih =>
    obtain ⟨arg, s₁, h₁, k₁⟩ := bind_ok h
    obtain ⟨ts, rest, rfl, rfl, harg⟩ := hn _ _ _ h₁
    obtain ⟨found, s₂, h₂, k₂⟩ := bind_ok k₁
    rcases accept_ok h₂ with ⟨rfl, r, rest, rfl, rfl⟩ | ⟨rfl, rfl⟩
    · obtain ⟨rfl, rfl⟩ := pure_ok k₂
      exact ⟨_, rest, by simp, rfl, [arg], ts, r, rfl, .last harg, by simp⟩
    · obtain ⟨u, s₃, h₃, k₃⟩ := bind_ok k₂
      obtain ⟨comma, rest, rfl, rfl⟩ := mark_ok h₃
      obtain ⟨_, rest, rfl, rfl, es, us, r, rfl, hes, rfl⟩ := ih _ _ k₃
      exact ⟨ts ++ ⟨.mark .comma, comma⟩ :: (us ++ [⟨.mark .closeParen, r⟩]), rest, by simp, rfl,
        arg :: es, ts ++ ⟨.mark .comma, comma⟩ :: us, r, by simp, .cons harg hes, by simp⟩

theorem sound_call : Sound d (DerivesCall d) (call rounds nested) := by
  intro tokens x s h
  obtain ⟨⟨name, loc⟩, s₁, h₁, k₁⟩ := bind_ok h
  obtain ⟨rest, rfl, rfl⟩ := identifier_ok h₁
  obtain ⟨args, s₂, h₂, k₂⟩ := bind_ok k₁
  obtain ⟨rfl, rfl⟩ := pure_ok k₂
  obtain ⟨u, s₃, h₃, h₂⟩ := bind_ok h₂
  obtain ⟨l, rest, rfl, rfl⟩ := mark_ok h₃
  obtain ⟨found, s₄, h₄, h₂⟩ := bind_ok h₂
  rcases accept_ok h₄ with ⟨rfl, r, rest, rfl, rfl⟩ | ⟨rfl, rfl⟩
  · obtain ⟨rfl, rfl⟩ := pure_ok h₂
    exact ⟨[_, _, _], rest, rfl, rfl, .empty⟩
  · obtain ⟨_, rest, rfl, rfl, es, us, r, rfl, hes, rfl⟩ := sound_args rounds hn #[] _ _ _ h₂
    exact ⟨_, rest, rfl, rfl, .args hes⟩

theorem sound_primary : Sound d (DerivesPrimary d) (primary rounds nested) := by
  intro tokens x s h
  obtain ⟨found, s₁, h₁, k₁⟩ := bind_ok h
  obtain ⟨rfl, rfl⟩ := ahead_ok h₁
  split at k₁
  · obtain ⟨u, s₂, h₂, k₂⟩ := bind_ok k₁
    cases skip_ok h₂
    obtain ⟨rfl, rfl⟩ := pure_ok k₂
    exact ⟨[_], _, rfl, rfl, .int⟩
  · obtain ⟨c, s₂, h₂, k₂⟩ := bind_ok k₁
    obtain ⟨ts, rest, hrest, rfl, hc⟩ := sound_call rounds hn _ _ _ h₂
    obtain ⟨rfl, rfl⟩ := pure_ok k₂
    exact ⟨ts, rest, hrest, rfl, .call hc⟩
  · obtain ⟨p, s₂, h₂, k₂⟩ := bind_ok k₁
    obtain ⟨ts, rest, hrest, rfl, hp⟩ := sound_place rounds hn _ _ _ h₂
    obtain ⟨rfl, rfl⟩ := pure_ok k₂
    exact ⟨ts, rest, hrest, rfl, .place hp⟩
  · rename_i l rest
    obtain ⟨u, s₂, h₂, k₂⟩ := bind_ok k₁
    cases skip_ok h₂
    obtain ⟨e, s₃, h₃, k₃⟩ := bind_ok k₂
    obtain ⟨ts, rest, rfl, rfl, he⟩ := hn _ _ _ h₃
    obtain ⟨u', s₄, h₄, k₄⟩ := bind_ok k₃
    obtain ⟨r, rest, rfl, rfl⟩ := mark_ok h₄
    obtain ⟨rfl, rfl⟩ := pure_ok k₄
    exact ⟨⟨.mark .openParen, l⟩ :: (ts ++ [⟨.mark .closeParen, r⟩]), rest, by simp, rfl,
      .parenthesized he⟩
  · cases k₁

end Nested

theorem sound_unary (hn : Sound d (DerivesExpr d) nested)
    (hneg : Sound d (Inside DerivesUnary d) negated) :
    Sound d (DerivesUnary d) (unary rounds nested negated) := by
  intro tokens x s h
  obtain ⟨found, s₁, h₁, k₁⟩ := bind_ok h
  rcases accept_ok h₁ with ⟨rfl, l, rest, rfl, rfl⟩ | ⟨rfl, rfl⟩
  · obtain ⟨e, s₂, h₂, k₂⟩ := bind_ok k₁
    obtain ⟨ts, rest, rfl, rfl, inner, rfl, he⟩ := hneg _ _ _ h₂
    obtain ⟨rfl, rfl⟩ := pure_ok k₂
    exact ⟨⟨.operator .sub, l⟩ :: ts, rest, rfl, rfl, .neg he⟩
  · obtain ⟨ts, rest, htokens, hs, he⟩ := sound_primary rounds hn _ _ _ k₁
    exact ⟨ts, rest, htokens, hs, .primary he⟩

/-! ### Levels of operators -/

theorem sound_chain {ops : List BinaryOp} {levels : List (List BinaryOp)}
    (ho : Sound d (DerivesLevel levels d) operand) {ts : List Lexeme} {lhs : Expr}
    (hl : DerivesLevel (ops :: levels) d ts lhs) :
    Sound d (fun us e => DerivesLevel (ops :: levels) d (ts ++ us) e)
      (chain ops operand rounds lhs) := by
  intro tokens x s h
  induction rounds generalizing ts lhs tokens with
  | zero =>
    obtain ⟨rfl, rfl⟩ := pure_ok h
    exact ⟨[], tokens, rfl, rfl, by simpa using hl⟩
  | succ rounds ih =>
    obtain ⟨found, s₁, h₁, k₁⟩ := bind_ok h
    obtain ⟨rfl, rfl⟩ := ahead_ok h₁
    split at k₁
    · rename_i op loc rest
      split at k₁
      · rename_i hop
        obtain ⟨u, s₂, h₂, k₂⟩ := bind_ok k₁
        cases skip_ok h₂
        obtain ⟨rhs, s₃, h₃, k₃⟩ := bind_ok k₂
        obtain ⟨us, rest, rfl, rfl, hr⟩ := ho _ _ _ h₃
        obtain ⟨vs, rest, rfl, rfl, he⟩ := ih (.binary hl hop hr) _ k₃
        exact ⟨⟨.operator op, loc⟩ :: (us ++ vs), rest, by simp, rfl, by simpa using he⟩
      · obtain ⟨rfl, rfl⟩ := pure_ok k₁
        exact ⟨[], _, rfl, rfl, by simpa using hl⟩
    · obtain ⟨rfl, rfl⟩ := pure_ok k₁
      exact ⟨[], _, rfl, rfl, by simpa using hl⟩

theorem sound_level {ops : List BinaryOp} {levels : List (List BinaryOp)}
    (ho : Sound d (DerivesLevel levels d) operand) :
    Sound d (DerivesLevel (ops :: levels) d) (level rounds ops operand) := by
  intro tokens x s h
  obtain ⟨lhs, s₁, h₁, k₁⟩ := bind_ok h
  obtain ⟨ts, rest, rfl, rfl, hl⟩ := ho _ _ _ h₁
  obtain ⟨us, rest, rfl, rfl, he⟩ := sound_chain rounds ho (.operand hl) _ _ _ k₁
  exact ⟨ts ++ us, rest, by simp, rfl, he⟩

theorem sound_levels (ho : Sound d (DerivesUnary d) operand) (levels : List (List BinaryOp)) :
    Sound d (DerivesLevel levels d) (levels.foldr (level rounds) operand) := by
  induction levels with
  | nil =>
    intro tokens x s h
    obtain ⟨ts, rest, htokens, hs, he⟩ := ho _ _ _ h
    exact ⟨ts, rest, htokens, hs, .unary he⟩
  | cons ops levels ih => exact sound_level rounds ih

theorem sound_expr (ho : ∀ d, Sound d (DerivesUnary d) operand) (d : Nat) :
    Sound d (DerivesExpr d) (nest (binary rounds operand)) := by
  intro tokens x s h
  obtain ⟨ts, rest, htokens, hs, inner, rfl, he⟩ :=
    sound_nest (fun d => sound_levels rounds (ho d) precedence) d _ _ _ h
  exact ⟨ts, rest, htokens, hs, .levels he⟩

theorem sound_unaryAt (depth d : Nat) : Sound d (DerivesUnary d) (unaryAt rounds depth) := by
  induction depth generalizing d with
  | zero =>
    intro tokens x s h
    cases h
  | succ depth ih => exact sound_unary rounds (sound_expr rounds ih d) (sound_nest ih d)

theorem sound_exprAt (depth d : Nat) : Sound d (DerivesExpr d) (exprAt rounds depth) :=
  sound_expr rounds (sound_unaryAt rounds depth) d

end Expressions

/-! ## Statements -/

section Statements

variable {d : Nat} {expr : Parser Expr} {nested : Parser Stmt} (rounds : Nat)

section Simple

variable (he : Sound d (DerivesExpr d) expr)
include he

theorem sound_assignment : Sound d (DerivesAssign d) (assignment rounds expr) := by
  intro tokens x s h
  obtain ⟨target, s₁, h₁, k₁⟩ := bind_ok h
  obtain ⟨ts, rest, rfl, rfl, htarget⟩ := sound_place rounds he _ _ _ h₁
  obtain ⟨u, s₂, h₂, k₂⟩ := bind_ok k₁
  obtain ⟨loc, rest, rfl, rfl⟩ := mark_ok h₂
  obtain ⟨value, s₃, h₃, k₃⟩ := bind_ok k₂
  obtain ⟨us, rest, rfl, rfl, hvalue⟩ := he _ _ _ h₃
  obtain ⟨rfl, rfl⟩ := pure_ok k₃
  exact ⟨ts ++ ⟨.mark .assign, loc⟩ :: us, rest, by simp, rfl, .assign htarget hvalue⟩

theorem sound_condition :
    Sound d (fun ts e => ∃ l us r, ts = ⟨.mark .openParen, l⟩ :: (us ++ [⟨.mark .closeParen, r⟩]) ∧
      DerivesExpr d us e) (condition expr) := by
  intro tokens x s h
  obtain ⟨u, s₁, h₁, k₁⟩ := bind_ok h
  obtain ⟨l, rest, rfl, rfl⟩ := mark_ok h₁
  obtain ⟨test, s₂, h₂, k₂⟩ := bind_ok k₁
  obtain ⟨us, rest, rfl, rfl, htest⟩ := he _ _ _ h₂
  obtain ⟨u', s₃, h₃, k₃⟩ := bind_ok k₂
  obtain ⟨r, rest, rfl, rfl⟩ := mark_ok h₃
  obtain ⟨rfl, rfl⟩ := pure_ok k₃
  exact ⟨_, rest, by simp, rfl, l, us, r, rfl, htest⟩

theorem sound_arrayDeclaration :
    Sound d (fun ts stmt => ∃ name loc l us size r, ts = ⟨.identifier name, loc⟩ ::
      ⟨.mark .openBracket, l⟩ :: (us ++ [⟨.mark .closeBracket, r⟩]) ∧ DerivesExpr d us size ∧
      stmt = .array name size) (arrayDeclaration expr) := by
  intro tokens x s h
  obtain ⟨⟨name, loc⟩, s₁, h₁, k₁⟩ := bind_ok h
  obtain ⟨rest, rfl, rfl⟩ := identifier_ok h₁
  obtain ⟨u, s₂, h₂, k₂⟩ := bind_ok k₁
  obtain ⟨l, rest, rfl, rfl⟩ := mark_ok h₂
  obtain ⟨size, s₃, h₃, k₃⟩ := bind_ok k₂
  obtain ⟨us, rest, rfl, rfl, hsize⟩ := he _ _ _ h₃
  obtain ⟨u', s₄, h₄, k₄⟩ := bind_ok k₃
  obtain ⟨r, rest, rfl, rfl⟩ := mark_ok h₄
  obtain ⟨rfl, rfl⟩ := pure_ok k₄
  exact ⟨_, rest, by simp, rfl, name, loc, l, us, size, r, rfl, hsize, rfl⟩

end Simple

theorem sound_ended {α : Type} {T : List Lexeme → α → Prop} {content : Parser α}
    (hc : Sound d T content) :
    Sound d (fun ts x => ∃ us r, ts = us ++ [⟨.mark .semicolon, r⟩] ∧ T us x) (ended content) := by
  intro tokens x s h
  obtain ⟨value, s₁, h₁, k₁⟩ := bind_ok h
  obtain ⟨us, rest, rfl, rfl, hvalue⟩ := hc _ _ _ h₁
  obtain ⟨u, s₂, h₂, k₂⟩ := bind_ok k₁
  obtain ⟨r, rest, rfl, rfl⟩ := mark_ok h₂
  obtain ⟨rfl, rfl⟩ := pure_ok k₂
  exact ⟨_, rest, by simp, rfl, us, r, rfl, hvalue⟩

theorem sound_closing (hs : Sound d (DerivesStatement d) nested) (read : Array Stmt) :
    Sound d (fun ts body => ∃ us r stmts, ts = us ++ [⟨.mark .closeBrace, r⟩] ∧
      DerivesStatements d us stmts ∧ body = read.toList ++ stmts) (closing nested rounds read) := by
  intro tokens x s h
  induction rounds generalizing read tokens with
  | zero => cases h
  | succ rounds ih =>
    obtain ⟨found, s₁, h₁, k₁⟩ := bind_ok h
    rcases accept_ok h₁ with ⟨rfl, r, rest, rfl, rfl⟩ | ⟨rfl, rfl⟩
    · obtain ⟨rfl, rfl⟩ := pure_ok k₁
      exact ⟨[_], rest, rfl, rfl, [], r, [], rfl, .nil, by simp⟩
    · obtain ⟨left, s₂, h₂, k₂⟩ := bind_ok k₁
      obtain ⟨rfl, rfl⟩ := ahead_ok h₂
      split at k₂
      · cases k₂
      · obtain ⟨stmt, s₃, h₃, k₃⟩ := bind_ok k₂
        obtain ⟨ts, rest, rfl, rfl, hstmt⟩ := hs _ _ _ h₃
        obtain ⟨_, rest, rfl, rfl, us, r, stmts, rfl, hstmts, rfl⟩ := ih _ _ k₃
        exact ⟨ts ++ us ++ [⟨.mark .closeBrace, r⟩], rest, by simp, rfl, ts ++ us, r, stmt :: stmts, rfl,
          .cons hstmt hstmts, by simp⟩

theorem sound_block (hs : ∀ d, Sound d (DerivesStatement d) nested) (d : Nat) :
    Sound d (DerivesBlock d) (block rounds nested) := by
  intro tokens x s h
  obtain ⟨u, s₁, h₁, k₁⟩ := bind_ok h
  obtain ⟨l, rest, rfl, rfl⟩ := mark_ok h₁
  obtain ⟨_, rest, rfl, rfl, inner, rfl, us, r, stmts, rfl, hstmts, rfl⟩ :=
    sound_nest (fun d => sound_closing rounds (hs d) #[]) d _ _ _ h
  exact ⟨_, rest, rfl, rfl, .braces hstmts⟩

section Compound

variable (he : Sound d (DerivesExpr d) expr) (hs : ∀ d, Sound d (DerivesStatement d) nested)
include he hs

theorem sound_whileLoop :
    Sound d (fun ts stmt => ∀ l, DerivesStatement d (⟨.keyword .whileWord, l⟩ :: ts) stmt)
      (whileLoop rounds expr nested) := by
  intro tokens x s h
  obtain ⟨test, s₁, h₁, k₁⟩ := bind_ok h
  obtain ⟨_, rest, rfl, rfl, l, us, r, rfl, htest⟩ := sound_condition he _ _ _ h₁
  obtain ⟨body, s₂, h₂, k₂⟩ := bind_ok k₁
  obtain ⟨vs, rest, rfl, rfl, hbody⟩ := sound_block rounds hs d _ _ _ h₂
  obtain ⟨rfl, rfl⟩ := pure_ok k₂
  exact ⟨⟨.mark .openParen, l⟩ :: (us ++ ⟨.mark .closeParen, r⟩ :: vs), rest, by simp, rfl,
    fun _ => .whileLoop htest hbody⟩

theorem sound_forLoop :
    Sound d (fun ts stmt => ∀ l, DerivesStatement d (⟨.keyword .forWord, l⟩ :: ts) stmt)
      (forLoop rounds expr nested) := by
  intro tokens x s h
  obtain ⟨u, s₁, h₁, k₁⟩ := bind_ok h
  obtain ⟨l, rest, rfl, rfl⟩ := mark_ok h₁
  obtain ⟨init, s₂, h₂, k₂⟩ := bind_ok k₁
  obtain ⟨_, rest, rfl, rfl, ts, r, rfl, hinit⟩ := sound_ended (sound_assignment rounds he) _ _ _ h₂
  obtain ⟨test, s₃, h₃, k₃⟩ := bind_ok k₂
  obtain ⟨_, rest, rfl, rfl, us, r', rfl, htest⟩ := sound_ended he _ _ _ h₃
  obtain ⟨step, s₄, h₄, k₄⟩ := bind_ok k₃
  obtain ⟨vs, rest, rfl, rfl, hstep⟩ := sound_assignment rounds he _ _ _ h₄
  obtain ⟨u', s₅, h₅, k₅⟩ := bind_ok k₄
  obtain ⟨r'', rest, rfl, rfl⟩ := mark_ok h₅
  obtain ⟨body, s₆, h₆, k₆⟩ := bind_ok k₅
  obtain ⟨ws, rest, rfl, rfl, hbody⟩ := sound_block rounds hs d _ _ _ h₆
  obtain ⟨rfl, rfl⟩ := pure_ok k₆
  exact ⟨⟨.mark .openParen, l⟩ :: (ts ++ ⟨.mark .semicolon, r⟩ :: (us ++ ⟨.mark .semicolon, r'⟩ ::
    (vs ++ ⟨.mark .closeParen, r''⟩ :: ws))), rest, by simp, rfl,
    fun _ => .forLoop hinit htest hstep hbody⟩

theorem sound_conditional :
    Sound d (fun ts stmt => ∀ l, DerivesConditional d (⟨.keyword .ifWord, l⟩ :: ts) stmt)
      (conditional rounds expr nested) := by
  intro tokens x s h
  obtain ⟨test, s₁, h₁, k₁⟩ := bind_ok h
  obtain ⟨_, rest, rfl, rfl, l, ts, r, rfl, htest⟩ := sound_condition he _ _ _ h₁
  obtain ⟨yes, s₂, h₂, k₂⟩ := bind_ok k₁
  obtain ⟨us, rest, rfl, rfl, hyes⟩ := sound_block rounds hs d _ _ _ h₂
  obtain ⟨found, s₃, h₃, k₃⟩ := bind_ok k₂
  rcases accept_ok h₃ with ⟨rfl, loc, rest, rfl, rfl⟩ | ⟨rfl, rfl⟩
  · obtain ⟨left, s₄, h₄, k₄⟩ := bind_ok k₃
    obtain ⟨rfl, rfl⟩ := ahead_ok h₄
    split at k₄
    · obtain ⟨stmt, s₅, h₅, k₅⟩ := bind_ok k₄
      obtain ⟨vs, rest, hif, rfl, inner, rfl, hstmt⟩ := sound_nest hs d _ _ _ h₅
      obtain ⟨rfl, rfl⟩ := pure_ok k₅
      rw [hif]
      exact ⟨⟨.mark .openParen, l⟩ :: (ts ++ ⟨.mark .closeParen, r⟩ ::
        (us ++ ⟨.keyword .elseWord, loc⟩ :: vs)), rest, by simp, rfl,
        fun _ => .elseIf htest hyes (hstmt.conditional_of_if hif.symm)⟩
    · obtain ⟨no, s₅, h₅, k₅⟩ := bind_ok k₄
      obtain ⟨vs, rest, rfl, rfl, hno⟩ := sound_block rounds hs d _ _ _ h₅
      obtain ⟨rfl, rfl⟩ := pure_ok k₅
      exact ⟨⟨.mark .openParen, l⟩ :: (ts ++ ⟨.mark .closeParen, r⟩ ::
        (us ++ ⟨.keyword .elseWord, loc⟩ :: vs)), rest, by simp, rfl,
        fun _ => .elseBlock htest hyes hno⟩
  · obtain ⟨rfl, rfl⟩ := pure_ok k₃
    exact ⟨⟨.mark .openParen, l⟩ :: (ts ++ ⟨.mark .closeParen, r⟩ :: us), rest, by simp, rfl,
      fun _ => .noElse htest hyes⟩

theorem sound_statement : Sound d (DerivesStatement d) (statement rounds expr nested) := by
  intro tokens x s h
  obtain ⟨found, s₁, h₁, k₁⟩ := bind_ok h
  obtain ⟨rfl, rfl⟩ := ahead_ok h₁
  split at k₁
  · obtain ⟨u, s₂, h₂, k₂⟩ := bind_ok k₁
    cases skip_ok h₂
    obtain ⟨e, s₃, h₃, k₃⟩ := bind_ok k₂
    obtain ⟨_, rest, rfl, rfl, ts, r, rfl, hvalue⟩ := sound_ended he _ _ _ h₃
    obtain ⟨rfl, rfl⟩ := pure_ok k₃
    exact ⟨_ :: _, rest, rfl, rfl, .print hvalue⟩
  · obtain ⟨u, s₂, h₂, k₂⟩ := bind_ok k₁
    cases skip_ok h₂
    obtain ⟨e, s₃, h₃, k₃⟩ := bind_ok k₂
    obtain ⟨_, rest, rfl, rfl, ts, r, rfl, hvalue⟩ := sound_ended he _ _ _ h₃
    obtain ⟨rfl, rfl⟩ := pure_ok k₃
    exact ⟨_ :: _, rest, rfl, rfl, .ret hvalue⟩
  · obtain ⟨u, s₂, h₂, k₂⟩ := bind_ok k₁
    cases skip_ok h₂
    obtain ⟨_, rest, rfl, rfl, _, r', rfl, name, loc, l, ts, size, r, rfl, hsize, rfl⟩ :=
      sound_ended (sound_arrayDeclaration he) _ _ _ k₂
    exact ⟨_ :: _, rest, rfl, rfl, by simpa using .array hsize⟩
  · obtain ⟨u, s₂, h₂, k₂⟩ := bind_ok k₁
    cases skip_ok h₂
    obtain ⟨ts, rest, rfl, rfl, hstmt⟩ := sound_conditional rounds he hs _ _ _ k₂
    exact ⟨_ :: ts, rest, rfl, rfl, .conditional (hstmt _)⟩
  · obtain ⟨u, s₂, h₂, k₂⟩ := bind_ok k₁
    cases skip_ok h₂
    obtain ⟨ts, rest, rfl, rfl, hstmt⟩ := sound_whileLoop rounds he hs _ _ _ k₂
    exact ⟨_ :: ts, rest, rfl, rfl, hstmt _⟩
  · obtain ⟨u, s₂, h₂, k₂⟩ := bind_ok k₁
    cases skip_ok h₂
    obtain ⟨ts, rest, rfl, rfl, hstmt⟩ := sound_forLoop rounds he hs _ _ _ k₂
    exact ⟨_ :: ts, rest, rfl, rfl, hstmt _⟩
  · obtain ⟨body, s₂, h₂, k₂⟩ := bind_ok k₁
    obtain ⟨ts, rest, htokens, rfl, hbody⟩ := sound_block rounds hs d _ _ _ h₂
    obtain ⟨rfl, rfl⟩ := pure_ok k₂
    exact ⟨ts, rest, htokens, rfl, .block hbody⟩
  · obtain ⟨c, s₂, h₂, k₂⟩ := bind_ok k₁
    obtain ⟨_, rest, htokens, rfl, ts, r, rfl, hc⟩ := sound_ended (sound_call rounds he) _ _ _ h₂
    obtain ⟨rfl, rfl⟩ := pure_ok k₂
    exact ⟨_, rest, htokens, rfl, .call hc⟩
  · obtain ⟨a, s₂, h₂, k₂⟩ := bind_ok k₁
    obtain ⟨_, rest, htokens, rfl, ts, r, rfl, ha⟩ := sound_ended (sound_assignment rounds he) _ _ _ h₂
    obtain ⟨rfl, rfl⟩ := pure_ok k₂
    exact ⟨_, rest, htokens, rfl, .assign ha⟩
  · cases k₁

end Compound

theorem sound_statementAt (depth d : Nat) : Sound d (DerivesStatement d) (statementAt rounds depth) := by
  induction depth generalizing d with
  | zero =>
    intro tokens x s h
    cases h
  | succ depth ih => exact sound_statement rounds (sound_exprAt rounds depth d) ih

end Statements

/-! ## Programs -/

section Programs

variable (rounds : Nat)

theorem sound_params {d : Nat} (read : Array (String × Loc)) :
    Sound d (fun ts params => ∃ names us r, ts = us ++ [⟨.mark .closeParen, r⟩] ∧ DerivesNames us names ∧
      params.map Prod.fst = read.toList.map Prod.fst ++ names) (items identifier rounds read) := by
  intro tokens x s h
  induction rounds generalizing read tokens with
  | zero => cases h
  | succ rounds ih =>
    obtain ⟨⟨name, loc⟩, s₁, h₁, k₁⟩ := bind_ok h
    obtain ⟨rest, rfl, rfl⟩ := identifier_ok h₁
    obtain ⟨found, s₂, h₂, k₂⟩ := bind_ok k₁
    rcases accept_ok h₂ with ⟨rfl, r, rest, rfl, rfl⟩ | ⟨rfl, rfl⟩
    · obtain ⟨rfl, rfl⟩ := pure_ok k₂
      exact ⟨[_, _], rest, rfl, rfl, [name], [_], r, rfl, .last, by simp⟩
    · obtain ⟨u, s₃, h₃, k₃⟩ := bind_ok k₂
      obtain ⟨comma, rest, rfl, rfl⟩ := mark_ok h₃
      obtain ⟨_, rest, rfl, rfl, names, us, r, rfl, hnames, hx⟩ := ih _ _ k₃
      exact ⟨_ :: _ :: (us ++ [⟨.mark .closeParen, r⟩]), rest, rfl, rfl, name :: names, _ :: _ :: us, r, rfl,
        .cons hnames, by simpa using hx⟩

theorem sound_function (d : Nat) : Sound d (DerivesFunction d) (function rounds) := by
  intro tokens x s h
  obtain ⟨⟨name, loc⟩, s₁, h₁, k₁⟩ := bind_ok h
  obtain ⟨rest, rfl, rfl⟩ := identifier_ok h₁
  obtain ⟨params, s₂, h₂, k₂⟩ := bind_ok k₁
  obtain ⟨body, s₃, h₃, k₃⟩ := bind_ok k₂
  obtain ⟨rfl, rfl⟩ := pure_ok k₃
  obtain ⟨u, s₄, h₄, k₄⟩ := bind_ok h₂
  obtain ⟨l, rest, rfl, rfl⟩ := mark_ok h₄
  obtain ⟨found, s₅, h₅, k₅⟩ := bind_ok k₄
  have hblock := sound_block rounds (sound_statementAt rounds maxNesting) d
  rcases accept_ok h₅ with ⟨rfl, r, rest, rfl, rfl⟩ | ⟨rfl, rfl⟩
  · obtain ⟨rfl, rfl⟩ := pure_ok k₅
    obtain ⟨ts, rest, rfl, rfl, hbody⟩ := hblock _ _ _ h₃
    exact ⟨_ :: _ :: _ :: ts, rest, rfl, rfl, .empty hbody⟩
  · obtain ⟨_, rest, rfl, rfl, names, ts, r, rfl, hnames, hparams⟩ := sound_params rounds #[] _ _ _ k₅
    obtain ⟨us, rest, rfl, rfl, hbody⟩ := hblock _ _ _ h₃
    refine ⟨⟨.identifier name, loc⟩ :: ⟨.mark .openParen, l⟩ :: (ts ++ ⟨.mark .closeParen, r⟩ :: us), rest,
      by simp, rfl, ?_⟩
    simp only [hparams]
    exact .params hnames hbody

/-- Every function takes a token away, so that no token is left after as many rounds as there were
tokens. -/
theorem sound_functions {bound d : Nat} {read : Array Function} {tokens : List Lexeme} {fs : List Function}
    {s : State} (hlength : tokens.length ≤ rounds)
    (h : functions bound rounds read ⟨tokens, d⟩ = .ok (fs, s)) :
    ∃ gs, fs = read.toList ++ gs ∧ DerivesFunctions d tokens gs := by
  induction rounds generalizing read tokens with
  | zero =>
    obtain ⟨rfl, rfl⟩ := pure_ok h
    rw [List.eq_nil_of_length_eq_zero (Nat.le_zero.1 hlength)]
    exact ⟨[], by simp, .nil⟩
  | succ rounds ih =>
    obtain ⟨left, s₁, h₁, k₁⟩ := bind_ok h
    obtain ⟨rfl, rfl⟩ := ahead_ok h₁
    split at k₁
    · rename_i hempty
      obtain ⟨rfl, rfl⟩ := pure_ok k₁
      rw [List.isEmpty_iff.1 hempty]
      exact ⟨[], by simp, .nil⟩
    · obtain ⟨f, s₂, h₂, k₂⟩ := bind_ok k₁
      obtain ⟨ts, rest, rfl, rfl, hf⟩ := sound_function bound d _ _ _ h₂
      have hpos : 0 < ts.length := by cases hf <;> simp
      obtain ⟨gs, rfl, hgs⟩ := ih (by rw [List.length_append] at hlength; omega) k₂
      exact ⟨f :: gs, by simp, .cons hf hgs⟩

end Programs

theorem program_sound {tokens : List Lexeme} {tree : Tree} (h : program tokens = .ok tree) :
    DerivesProgram maxNesting tokens tree := by
  unfold program at h
  cases hf : functions tokens.length tokens.length #[] ⟨tokens, maxNesting⟩ with
  | error refusal =>
    rw [hf] at h
    cases h
  | ok read =>
    rw [hf] at h
    cases h
    obtain ⟨gs, hgs, hderives⟩ := sound_functions tokens.length (Nat.le_refl _) hf
    simpa [DerivesProgram, hgs] using hderives

end CMinusMinus.Parser

namespace CMinusMinus

/-! ## Source text -/

/-- A text is accepted if its tokens are. -/
theorem parse_eq_ok {source : String} {tree : Tree} : parse source = .ok tree ↔
    ∃ tokens stop, Lexer.lex source = .ok (tokens, stop) ∧ Parser.program tokens = .ok tree := by
  unfold parse
  cases Lexer.lex source with
  | error e => simp [Bind.bind, Except.bind]
  | ok lexed => cases hp : Parser.program lexed.1 <;> simp [hp, Bind.bind, Except.bind, Prod.ext_iff]

end CMinusMinus
