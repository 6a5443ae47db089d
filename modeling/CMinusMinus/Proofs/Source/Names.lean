import CMinusMinus.Proofs.Source.Conditions
import CMinusMinus.Proofs.Source.Soundness

/-!
# Names in parsed trees

The lexer writes no other names than identifiers into its tokens, and the names of a tree are the
identifiers of the tokens that derive it, in the same order.
-/

namespace CMinusMinus

/-! ## Tokens -/

def Lexeme.isNamed (lexeme : Lexeme) : Bool :=
  match lexeme.token with
  | .identifier name => Text.isIdentifier name
  | _ => true

/-- Every name in the tokens is an identifier. -/
def Named (tokens : List Lexeme) : Prop :=
  ∀ lexeme ∈ tokens, lexeme.isNamed = true

namespace Lexer

theorem isNamed_ofWord {c : Char} {cs : List Char} (hc : Text.isIdentifierStart c = true)
    (hcs : cs.all Text.isIdentifierRest = true) (loc : Loc) :
    (Lexeme.mk (.ofWord (String.ofList (c :: cs))) loc).isNamed = true := by
  unfold Token.ofWord
  split
  · rfl
  · simp [Lexeme.isNamed, Text.isIdentifier, hc, hcs]

theorem isNamed_symbolAt {c : Char} {next : Option Char} {token : Token} {more : Nat}
    (h : symbolAt c next = some (token, more)) (loc : Loc) : (Lexeme.mk token loc).isNamed = true := by
  unfold symbolAt at h
  split at h <;> cases h <;> rfl

theorem isNamed_tokenAt {c : Char} {cs : List Char} {token : Token} {more : Nat}
    (h : tokenAt c cs = some (token, more)) (loc : Loc) : (Lexeme.mk token loc).isNamed = true := by
  unfold tokenAt at h
  split at h
  · cases h
    rfl
  · split at h
    · rename_i hstart
      cases h
      exact isNamed_ofWord hstart List.all_takeWhile loc
    · exact isNamed_symbolAt h loc

theorem named_lexFrom {loc stop : Loc} {read : Array Lexeme} {cs : List Char} {tokens : List Lexeme}
    (hread : Named read.toList) (h : lexFrom loc read cs = .ok (tokens, stop)) : Named tokens := by
  fun_induction lexFrom loc read cs with
  | case1 =>
    cases h
    exact hread
  | case2 loc read c cs hblank ih => exact ih hread h
  | case3 loc read c cs hblank hcomment skipped ih => exact ih hread h
  | case4 => cases h
  | case5 loc read c cs hblank hcomment token more htoken ih =>
    refine ih (fun lexeme hm => ?_) h
    rw [Array.toList_push] at hm
    rcases List.mem_append.1 hm with hm | hm
    · exact hread lexeme hm
    · rw [List.mem_singleton.1 hm]
      exact isNamed_tokenAt htoken loc

end Lexer

/-- The identifiers among the tokens. -/
def identifiers (tokens : List Lexeme) : List String :=
  tokens.filterMap fun lexeme =>
    match lexeme.token with
    | .identifier name => some name
    | _ => none

@[simp] theorem identifiers_nil : identifiers [] = [] :=
  rfl

@[simp] theorem identifiers_append (ts us : List Lexeme) :
    identifiers (ts ++ us) = identifiers ts ++ identifiers us :=
  List.filterMap_append

@[simp] theorem identifiers_identifier (name : String) (loc : Loc) (ts : List Lexeme) :
    identifiers (⟨.identifier name, loc⟩ :: ts) = name :: identifiers ts :=
  rfl

@[simp] theorem identifiers_integer (value : Nat) (loc : Loc) (ts : List Lexeme) :
    identifiers (⟨.integer value, loc⟩ :: ts) = identifiers ts :=
  rfl

@[simp] theorem identifiers_keyword (word : Keyword) (loc : Loc) (ts : List Lexeme) :
    identifiers (⟨.keyword word, loc⟩ :: ts) = identifiers ts :=
  rfl

@[simp] theorem identifiers_mark (m : Mark) (loc : Loc) (ts : List Lexeme) :
    identifiers (⟨.mark m, loc⟩ :: ts) = identifiers ts :=
  rfl

@[simp] theorem identifiers_operator (op : BinaryOp) (loc : Loc) (ts : List Lexeme) :
    identifiers (⟨.operator op, loc⟩ :: ts) = identifiers ts :=
  rfl

theorem isIdentifier_of_named {tokens : List Lexeme} (h : Named tokens) :
    ∀ name ∈ identifiers tokens, Text.isIdentifier name = true := by
  intro name hname
  obtain ⟨lexeme, hlexeme, heq⟩ := List.mem_filterMap.1 hname
  have hnamed := h lexeme hlexeme
  unfold Lexeme.isNamed at hnamed
  split at heq
  · rename_i token htoken
    cases heq
    simpa [htoken] using hnamed
  · cases heq

/-! ## Names of trees -/

mutual

/-- The names in an expression, in the order of the text. -/
def Expr.names (e : Expr) : List String :=
  match e with
  | .int _ => []
  | .place name indices _ => name :: Expr.namesOf indices
  | .call name args _ => name :: Expr.namesOf args
  | .neg operand => operand.names
  | .binary _ lhs rhs => lhs.names ++ rhs.names

def Expr.namesOf (es : List Expr) : List String :=
  match es with
  | [] => []
  | e :: es => e.names ++ Expr.namesOf es

end

def Place.names (p : Place) : List String :=
  p.name :: Expr.namesOf p.indices

def Call.names (c : Call) : List String :=
  c.name :: Expr.namesOf c.args

def Assign.names (a : Assign) : List String :=
  a.target.names ++ a.value.names

mutual

/-- The names in a statement, in the order of the text. -/
def Stmt.names (stmt : Stmt) : List String :=
  match stmt with
  | .print value | .ret value => value.names
  | .assign a => a.names
  | .array name size => name :: size.names
  | .call c => c.names
  | .whileLoop condition body => condition.names ++ Stmt.namesOf body
  | .forLoop init condition step body =>
    init.names ++ (condition.names ++ (step.names ++ Stmt.namesOf body))
  | .branch condition yes no => condition.names ++ (Stmt.namesOf yes ++ Stmt.namesOption no)
  | .block body => Stmt.namesOf body

def Stmt.namesOf (body : List Stmt) : List String :=
  match body with
  | [] => []
  | stmt :: body => stmt.names ++ Stmt.namesOf body

def Stmt.namesOption (no : Option (List Stmt)) : List String :=
  match no with
  | none => []
  | some body => Stmt.namesOf body

end

def Function.names (f : Function) : List String :=
  f.name :: (f.params ++ Stmt.namesOf f.body)

/-- All names in a tree, in the order of the text. -/
def Tree.names (tree : Tree) : List String :=
  tree.functions.flatMap Function.names

/-! ## Names of derived trees -/

namespace Grammar

mutual

theorem DerivesExpr.names : ∀ {d ts e}, DerivesExpr d ts e → e.names = identifiers ts
  | _, _, _, .levels h => h.names

theorem DerivesLevel.names : ∀ {levels d ts e}, DerivesLevel levels d ts e → e.names = identifiers ts
  | _, _, _, _, .unary h => h.names
  | _, _, _, _, .operand h => h.names
  | _, _, _, _, .binary hl _ hr => by simp [Expr.names, hl.names, hr.names]

theorem DerivesUnary.names : ∀ {d ts e}, DerivesUnary d ts e → e.names = identifiers ts
  | _, _, _, .neg h => by simp [Expr.names, h.names]
  | _, _, _, .primary h => h.names

theorem DerivesPrimary.names : ∀ {d ts e}, DerivesPrimary d ts e → e.names = identifiers ts
  | _, _, _, .int => rfl
  | _, _, _, .call h => h.names
  | _, _, _, .place h => h.names
  | _, _, _, .parenthesized h => by simp [h.names]

theorem DerivesPlace.names : ∀ {d ts p}, DerivesPlace d ts p → p.names = identifiers ts
  | _, _, _, .indexed h => by simp [Place.names, h.names]

theorem DerivesIndices.names : ∀ {d ts es}, DerivesIndices d ts es → Expr.namesOf es = identifiers ts
  | _, _, _, .nil => rfl
  | _, _, _, .cons hindex h => by simp [Expr.namesOf, hindex.names, h.names]

theorem DerivesCall.names : ∀ {d ts c}, DerivesCall d ts c → c.names = identifiers ts
  | _, _, _, .empty => rfl
  | _, _, _, .args h => by simp [Call.names, h.names]

theorem DerivesArgs.names : ∀ {d ts args}, DerivesArgs d ts args → Expr.namesOf args = identifiers ts
  | _, _, _, .last harg => by simp [Expr.namesOf, harg.names]
  | _, _, _, .cons harg h => by simp [Expr.namesOf, harg.names, h.names]

end

theorem DerivesAssign.names {d : Nat} {ts : List Lexeme} {a : Assign} (h : DerivesAssign d ts a) :
    a.names = identifiers ts := by
  cases h with
  | assign htarget hvalue => simp [Assign.names, htarget.names, hvalue.names]

mutual

theorem DerivesStatement.names : ∀ {d ts stmt}, DerivesStatement d ts stmt → stmt.names = identifiers ts
  | _, _, _, .print h => by simp [Stmt.names, h.names]
  | _, _, _, .ret h => by simp [Stmt.names, h.names]
  | _, _, _, .array h => by simp [Stmt.names, h.names]
  | _, _, _, .conditional h => h.names
  | _, _, _, .whileLoop he hb => by simp [Stmt.names, he.names, hb.names]
  | _, _, _, .forLoop hinit he hstep hb => by
    simp [Stmt.names, hinit.names, he.names, hstep.names, hb.names]
  | _, _, _, .assign h => by simp [Stmt.names, h.names]
  | _, _, _, .call h => by simp [Stmt.names, h.names]
  | _, _, _, .block h => by simp [Stmt.names, h.names]

theorem DerivesConditional.names : ∀ {d ts stmt}, DerivesConditional d ts stmt →
    stmt.names = identifiers ts
  | _, _, _, .noElse he hyes => by simp [Stmt.names, Stmt.namesOption, he.names, hyes.names]
  | _, _, _, .elseBlock he hyes hno => by
    simp [Stmt.names, Stmt.namesOption, he.names, hyes.names, hno.names]
  | _, _, _, .elseIf he hyes h => by
    simp [Stmt.names, Stmt.namesOption, Stmt.namesOf, he.names, hyes.names, h.names]

theorem DerivesBlock.names : ∀ {d ts body}, DerivesBlock d ts body → Stmt.namesOf body = identifiers ts
  | _, _, _, .braces h => by simp [h.names]

theorem DerivesStatements.names : ∀ {d ts body}, DerivesStatements d ts body →
    Stmt.namesOf body = identifiers ts
  | _, _, _, .nil => rfl
  | _, _, _, .cons hs h => by simp [Stmt.namesOf, hs.names, h.names]

end

theorem DerivesNames.names {ts : List Lexeme} {names : List String} (h : DerivesNames ts names) :
    names = identifiers ts := by
  induction h with
  | last => rfl
  | cons h ih => simp [← ih]

theorem DerivesFunction.names {d : Nat} {ts : List Lexeme} {f : Function} (h : DerivesFunction d ts f) :
    f.names = identifiers ts := by
  cases h with
  | empty hb => simp [Function.names, hb.names]
  | params hp hb => simp [Function.names, ← hp.names, hb.names]

theorem DerivesFunctions.names {d : Nat} {ts : List Lexeme} {fs : List Function}
    (h : DerivesFunctions d ts fs) : fs.flatMap Function.names = identifiers ts := by
  induction h with
  | nil => rfl
  | cons hf h ih => simp [hf.names, ih]

theorem DerivesProgram.names {d : Nat} {tokens : List Lexeme} {tree : Tree}
    (h : DerivesProgram d tokens tree) : tree.names = identifiers tokens :=
  DerivesFunctions.names h

end Grammar

/-! ## Named trees -/

mutual

theorem Expr.all_isNamed {e : Expr} (h : ∀ name ∈ e.names, Text.isIdentifier name = true) :
    e.all Expr.isNamed = true := by
  match e with
  | .int value => rfl
  | .place name indices loc | .call name indices loc =>
    simp only [Expr.names, List.forall_mem_cons] at h
    simp only [Expr.all, Bool.and_eq_true]
    exact ⟨h.1, Expr.allOf_isNamed h.2⟩
  | .neg operand =>
    simp only [Expr.names] at h
    simp only [Expr.all, Bool.and_eq_true]
    exact ⟨rfl, Expr.all_isNamed h⟩
  | .binary op lhs rhs =>
    simp only [Expr.names, List.forall_mem_append] at h
    simp only [Expr.all, Bool.and_eq_true]
    exact ⟨rfl, Expr.all_isNamed h.1, Expr.all_isNamed h.2⟩

theorem Expr.allOf_isNamed {es : List Expr} (h : ∀ name ∈ Expr.namesOf es, Text.isIdentifier name = true) :
    Expr.allOf Expr.isNamed es = true := by
  match es with
  | [] => rfl
  | e :: es =>
    simp only [Expr.namesOf, List.forall_mem_append] at h
    simp only [Expr.allOf, Bool.and_eq_true]
    exact ⟨Expr.all_isNamed h.1, Expr.allOf_isNamed h.2⟩

end

theorem Assign.all_isNamed {a : Assign} (h : ∀ name ∈ a.names, Text.isIdentifier name = true) :
    a.all Expr.isNamed = true := by
  simp only [Assign.names, Place.names, List.cons_append, List.forall_mem_cons, List.forall_mem_append] at h
  simp only [Assign.all, Bool.and_eq_true]
  exact ⟨Expr.all_isNamed h.2.2, Expr.allOf_isNamed h.2.1⟩

mutual

theorem Stmt.all_isNamed {stmt : Stmt} (h : ∀ name ∈ stmt.names, Text.isIdentifier name = true) :
    stmt.all Expr.isNamed Call.isNamed = true := by
  match stmt with
  | .print value | .ret value =>
    simp only [Stmt.names] at h
    simp only [Stmt.all]
    exact Expr.all_isNamed h
  | .array name size =>
    simp only [Stmt.names, List.forall_mem_cons] at h
    simp only [Stmt.all]
    exact Expr.all_isNamed h.2
  | .assign a =>
    simp only [Stmt.names] at h
    simp only [Stmt.all]
    exact Assign.all_isNamed h
  | .call c =>
    simp only [Stmt.names, Call.names, List.forall_mem_cons] at h
    simp only [Stmt.all, Bool.and_eq_true]
    exact ⟨h.1, Expr.allOf_isNamed h.2⟩
  | .whileLoop condition body =>
    simp only [Stmt.names, List.forall_mem_append] at h
    simp only [Stmt.all, Bool.and_eq_true]
    exact ⟨Expr.all_isNamed h.1, Stmt.allOf_isNamed h.2⟩
  | .forLoop init condition step body =>
    simp only [Stmt.names, List.forall_mem_append] at h
    simp only [Stmt.all, Bool.and_eq_true]
    exact ⟨Assign.all_isNamed h.1, Expr.all_isNamed h.2.1, Assign.all_isNamed h.2.2.1,
      Stmt.allOf_isNamed h.2.2.2⟩
  | .branch condition yes no =>
    simp only [Stmt.names, List.forall_mem_append] at h
    simp only [Stmt.all, Bool.and_eq_true]
    exact ⟨Expr.all_isNamed h.1, Stmt.allOf_isNamed h.2.1, Stmt.allOption_isNamed h.2.2⟩
  | .block body =>
    simp only [Stmt.names] at h
    simp only [Stmt.all]
    exact Stmt.allOf_isNamed h

theorem Stmt.allOf_isNamed {body : List Stmt}
    (h : ∀ name ∈ Stmt.namesOf body, Text.isIdentifier name = true) :
    Stmt.allOf Expr.isNamed Call.isNamed body = true := by
  match body with
  | [] => rfl
  | stmt :: body =>
    simp only [Stmt.namesOf, List.forall_mem_append] at h
    simp only [Stmt.allOf, Bool.and_eq_true]
    exact ⟨Stmt.all_isNamed h.1, Stmt.allOf_isNamed h.2⟩

theorem Stmt.allOption_isNamed {no : Option (List Stmt)}
    (h : ∀ name ∈ Stmt.namesOption no, Text.isIdentifier name = true) :
    Stmt.allOption Expr.isNamed Call.isNamed no = true := by
  match no with
  | none => rfl
  | some body =>
    simp only [Stmt.namesOption] at h
    simp only [Stmt.allOption]
    exact Stmt.allOf_isNamed h

end

/-! ## Source text -/

/-- Every name in a tree that was read from a text is an identifier. -/
theorem isIdentifier_of_parse {source : String} {tree : Tree} (h : parse source = .ok tree) :
    ∀ name ∈ tree.names, Text.isIdentifier name = true := by
  obtain ⟨tokens, stop, hl, hprogram⟩ := parse_eq_ok.1 h
  have htokens : Named tokens := Lexer.named_lexFrom (by simp [Named]) hl
  rw [(Parser.program_sound hprogram).names]
  exact isIdentifier_of_named htokens

/-- Every name that the code of a parsed tree reads or jumps to is an identifier. -/
theorem isNamed_of_parse {source : String} {tree : Tree} (h : parse source = .ok tree) :
    tree.isNamed = true := by
  have hf : ∀ f ∈ tree.functions, ∀ name ∈ f.names, Text.isIdentifier name = true :=
    fun f hf name hname => isIdentifier_of_parse h name (List.mem_flatMap.2 ⟨f, hf, hname⟩)
  simp only [Function.names, List.forall_mem_cons, List.forall_mem_append] at hf
  rw [Tree.isNamed, Tree.all, Bool.and_eq_true, List.all_eq_true, List.all_eq_true]
  exact ⟨fun f hm => Stmt.allOf_isNamed (hf f hm).2.2, fun f hm => (hf f hm).1⟩

end CMinusMinus
