import CMinusMinus.Proofs.Source.Evaluation
import CMinusMinus.Text.Numeral

/-!
# Conditions on syntax trees

A condition on expressions and on calls that stand as statements holds of a tree where it holds at every
place of it. Names are identifiers in every tree that was read from a text; the builtin `len` has a
variable as its argument in every tree that has code; and a tree is regular if its calls of declared
functions have as many arguments as the functions have parameters, and a value where they need one.
-/

namespace CMinusMinus

/-! ## Everywhere in a tree -/

section Everywhere

variable (P : Expr → Bool)

mutual

/-- Whether a condition holds of all parts of an expression. -/
def Expr.all (e : Expr) : Bool :=
  match e with
  | .int value => P (.int value)
  | .place name indices loc => P (.place name indices loc) && Expr.allOf indices
  | .call name args loc => P (.call name args loc) && Expr.allOf args
  | .neg operand => P (.neg operand) && operand.all
  | .binary op lhs rhs => P (.binary op lhs rhs) && (lhs.all && rhs.all)

def Expr.allOf (es : List Expr) : Bool :=
  match es with
  | [] => true
  | e :: es => e.all && Expr.allOf es

end

def Assign.all (a : Assign) : Bool :=
  a.value.all P && Expr.allOf P a.target.indices

variable (Q : Call → Bool)

mutual

/-- Whether a condition holds of all expressions in a statement, and another one of all calls that stand as
statements. -/
def Stmt.all (stmt : Stmt) : Bool :=
  match stmt with
  | .print value | .ret value | .array _ value => value.all P
  | .assign a => a.all P
  | .call c => Q c && Expr.allOf P c.args
  | .whileLoop condition body => condition.all P && Stmt.allOf body
  | .forLoop init condition step body =>
    init.all P && (condition.all P && (step.all P && Stmt.allOf body))
  | .branch condition yes no => condition.all P && (Stmt.allOf yes && Stmt.allOption no)
  | .block body => Stmt.allOf body

def Stmt.allOf (body : List Stmt) : Bool :=
  match body with
  | [] => true
  | stmt :: body => stmt.all && Stmt.allOf body

def Stmt.allOption (no : Option (List Stmt)) : Bool :=
  match no with
  | none => true
  | some body => Stmt.allOf body

end

def Tree.all (tree : Tree) : Bool :=
  tree.functions.all fun f => Stmt.allOf P Q f.body

end Everywhere

section And

variable {P P' : Expr → Bool}

mutual

theorem Expr.all_and {e : Expr} (h : e.all P = true) (h' : e.all P' = true) :
    e.all (fun e => P e && P' e) = true := by
  match e with
  | .int value => simp_all [Expr.all]
  | .place name indices loc =>
    simp only [Expr.all, Bool.and_eq_true] at h h' ⊢
    exact ⟨⟨h.1, h'.1⟩, Expr.allOf_and h.2 h'.2⟩
  | .call name args loc =>
    simp only [Expr.all, Bool.and_eq_true] at h h' ⊢
    exact ⟨⟨h.1, h'.1⟩, Expr.allOf_and h.2 h'.2⟩
  | .neg operand =>
    simp only [Expr.all, Bool.and_eq_true] at h h' ⊢
    exact ⟨⟨h.1, h'.1⟩, Expr.all_and h.2 h'.2⟩
  | .binary op lhs rhs =>
    simp only [Expr.all, Bool.and_eq_true] at h h' ⊢
    exact ⟨⟨h.1, h'.1⟩, Expr.all_and h.2.1 h'.2.1, Expr.all_and h.2.2 h'.2.2⟩

theorem Expr.allOf_and {es : List Expr} (h : Expr.allOf P es = true) (h' : Expr.allOf P' es = true) :
    Expr.allOf (fun e => P e && P' e) es = true := by
  match es with
  | [] => rfl
  | e :: es =>
    simp only [Expr.allOf, Bool.and_eq_true] at h h' ⊢
    exact ⟨Expr.all_and h.1 h'.1, Expr.allOf_and h.2 h'.2⟩

end

theorem Assign.all_and {a : Assign} (h : a.all P = true) (h' : a.all P' = true) :
    a.all (fun e => P e && P' e) = true := by
  simp only [Assign.all, Bool.and_eq_true] at h h' ⊢
  exact ⟨Expr.all_and h.1 h'.1, Expr.allOf_and h.2 h'.2⟩

variable {Q Q' : Call → Bool}

mutual

theorem Stmt.all_and {stmt : Stmt} (h : stmt.all P Q = true) (h' : stmt.all P' Q' = true) :
    stmt.all (fun e => P e && P' e) (fun c => Q c && Q' c) = true := by
  match stmt with
  | .print value | .ret value | .array name value =>
    simp only [Stmt.all] at h h' ⊢
    exact Expr.all_and h h'
  | .assign a =>
    simp only [Stmt.all] at h h' ⊢
    exact Assign.all_and h h'
  | .call c =>
    simp only [Stmt.all, Bool.and_eq_true] at h h' ⊢
    exact ⟨⟨h.1, h'.1⟩, Expr.allOf_and h.2 h'.2⟩
  | .whileLoop condition body =>
    simp only [Stmt.all, Bool.and_eq_true] at h h' ⊢
    exact ⟨Expr.all_and h.1 h'.1, Stmt.allOf_and h.2 h'.2⟩
  | .forLoop init condition step body =>
    simp only [Stmt.all, Bool.and_eq_true] at h h' ⊢
    exact ⟨Assign.all_and h.1 h'.1, Expr.all_and h.2.1 h'.2.1, Assign.all_and h.2.2.1 h'.2.2.1,
      Stmt.allOf_and h.2.2.2 h'.2.2.2⟩
  | .branch condition yes no =>
    simp only [Stmt.all, Bool.and_eq_true] at h h' ⊢
    exact ⟨Expr.all_and h.1 h'.1, Stmt.allOf_and h.2.1 h'.2.1, Stmt.allOption_and h.2.2 h'.2.2⟩
  | .block body =>
    simp only [Stmt.all] at h h' ⊢
    exact Stmt.allOf_and h h'

theorem Stmt.allOf_and {body : List Stmt} (h : Stmt.allOf P Q body = true)
    (h' : Stmt.allOf P' Q' body = true) :
    Stmt.allOf (fun e => P e && P' e) (fun c => Q c && Q' c) body = true := by
  match body with
  | [] => rfl
  | stmt :: body =>
    simp only [Stmt.allOf, Bool.and_eq_true] at h h' ⊢
    exact ⟨Stmt.all_and h.1 h'.1, Stmt.allOf_and h.2 h'.2⟩

theorem Stmt.allOption_and {no : Option (List Stmt)} (h : Stmt.allOption P Q no = true)
    (h' : Stmt.allOption P' Q' no = true) :
    Stmt.allOption (fun e => P e && P' e) (fun c => Q c && Q' c) no = true := by
  match no with
  | none => rfl
  | some body =>
    simp only [Stmt.allOption] at h h' ⊢
    exact Stmt.allOf_and h h'

end

theorem Tree.all_and {tree : Tree} (h : tree.all P Q = true) (h' : tree.all P' Q' = true) :
    tree.all (fun e => P e && P' e) (fun c => Q c && Q' c) = true := by
  unfold Tree.all at h h' ⊢
  rw [List.all_eq_true] at h h' ⊢
  exact fun f hf => Stmt.allOf_and (h f hf) (h' f hf)

end And

/-! ## Names -/

/-- The name that an expression starts with is an identifier. -/
def Expr.isNamed : Expr → Bool
  | .place name _ _ | .call name _ _ => Text.isIdentifier name
  | _ => true

def Call.isNamed (c : Call) : Bool :=
  Text.isIdentifier c.name

/-- Every name in a tree that code reads or jumps to is an identifier. -/
def Tree.isNamed (tree : Tree) : Bool :=
  tree.all Expr.isNamed Call.isNamed && tree.functions.all fun f => Text.isIdentifier f.name

/-! ## Arguments of the builtin -/

def isVariable : List Expr → Bool
  | [.place _ _ _] => true
  | _ => false

/-- A call of the builtin `len` has a variable as its argument. -/
def Expr.isMeasured : Expr → Bool
  | .call name args _ => name ≠ lengthName || isVariable args
  | _ => true

def Call.isMeasured (c : Call) : Bool :=
  (Expr.call c.name c.args c.loc).isMeasured

theorem isVariable_iff {args : List Expr} (h : isVariable args = true) :
    ∃ name indices loc, args = [.place name indices loc] := by
  unfold isVariable at h
  split at h
  · exact ⟨_, _, _, rfl⟩
  · cases h

theorem bind_eq_ok {ε α β : Type} {x : Except ε α} {f : α → Except ε β} {b : β}
    (h : (x >>= f) = .ok b) : ∃ a, x = .ok a ∧ f a = .ok b := by
  cases x with
  | error e => cases h
  | ok a => exact ⟨a, rfl, h⟩

theorem map_eq_ok {ε α β : Type} {x : Except ε α} {f : α → β} {b : β} (h : x.map f = .ok b) :
    ∃ a, x = .ok a ∧ f a = b := by
  cases x with
  | error e => cases h
  | ok a => exact ⟨a, rfl, Except.ok.inj h⟩

theorem mapError_eq_ok {ε ε' α : Type} {x : Except ε α} {f : ε → ε'} {a : α}
    (h : x.mapError f = .ok a) : x = .ok a := by
  cases x with
  | error e => cases h
  | ok a' => exact congrArg Except.ok (Except.ok.inj h)

theorem ok_bind_eq_ok {ε : Type} {a b : Except ε Unit} (h : (do a; b) = .ok ()) :
    a = .ok () ∧ b = .ok () := by
  cases a with
  | error e => cases h
  | ok x => exact ⟨rfl, h⟩

theorem checkLength_ok {args : List Expr} {loc : Loc} (h : checkLength args loc = .ok ()) :
    isVariable args = true ∧ Expr.allOf Expr.isMeasured args = true := by
  unfold checkLength at h
  split at h
  · exact ⟨rfl, rfl⟩
  · cases h
  · cases h

mutual

theorem Expr.all_isMeasured {e : Expr} (h : e.check = .ok ()) : e.all Expr.isMeasured = true := by
  match e with
  | .int value => rfl
  | .place name indices loc =>
    simp only [Expr.check] at h
    simp only [Expr.all, isMeasured, Bool.true_and]
    exact Expr.allOf_isMeasured (ok_bind_eq_ok h).2
  | .call name args loc =>
    simp only [Expr.check] at h
    simp only [Expr.all, isMeasured, Bool.and_eq_true, Bool.or_eq_true, decide_eq_true_eq]
    split at h
    · exact ⟨.inr (checkLength_ok h).1, (checkLength_ok h).2⟩
    · exact ⟨.inl ‹_›, Expr.allOf_isMeasured h⟩
  | .neg operand =>
    simp only [Expr.check] at h
    simp only [Expr.all, isMeasured, Bool.true_and]
    exact Expr.all_isMeasured h
  | .binary op lhs rhs =>
    simp only [Expr.check] at h
    simp only [Expr.all, isMeasured, Bool.true_and, Bool.and_eq_true]
    exact ⟨Expr.all_isMeasured (ok_bind_eq_ok h).1, Expr.all_isMeasured (ok_bind_eq_ok h).2⟩

theorem Expr.allOf_isMeasured {es : List Expr} (h : Expr.checkAll es = .ok ()) :
    Expr.allOf Expr.isMeasured es = true := by
  match es with
  | [] => rfl
  | e :: es =>
    simp only [Expr.checkAll] at h
    simp only [Expr.allOf, Bool.and_eq_true]
    exact ⟨Expr.all_isMeasured (ok_bind_eq_ok h).2, Expr.allOf_isMeasured (ok_bind_eq_ok h).1⟩

end

theorem Assign.all_isMeasured {a : Assign} (h : a.check = .ok ()) : a.all Expr.isMeasured = true := by
  obtain ⟨hvalue, hplace⟩ := ok_bind_eq_ok h
  have hplace := Expr.all_isMeasured hplace
  simp only [Expr.all, Bool.and_eq_true] at hplace
  simp only [Assign.all, Bool.and_eq_true]
  exact ⟨Expr.all_isMeasured hvalue, hplace.2⟩

mutual

theorem Stmt.all_isMeasured {stmt : Stmt} (h : stmt.check = .ok ()) :
    stmt.all Expr.isMeasured Call.isMeasured = true := by
  match stmt with
  | .print value | .ret value | .array name value =>
    simp only [Stmt.check] at h
    simp only [Stmt.all]
    exact Expr.all_isMeasured h
  | .assign a =>
    simp only [Stmt.check] at h
    simp only [Stmt.all]
    exact Assign.all_isMeasured h
  | .call c =>
    simp only [Stmt.check, Call.check] at h
    have h := Expr.all_isMeasured h
    simp only [Expr.all] at h
    simp only [Stmt.all, Call.isMeasured]
    exact h
  | .whileLoop condition body =>
    simp only [Stmt.check] at h
    obtain ⟨hcondition, hbody⟩ := ok_bind_eq_ok h
    simp only [Stmt.all, Bool.and_eq_true]
    exact ⟨Expr.all_isMeasured hcondition, Stmt.allOf_isMeasured hbody⟩
  | .forLoop init condition step body =>
    simp only [Stmt.check] at h
    obtain ⟨hinit, h⟩ := ok_bind_eq_ok h
    obtain ⟨hcondition, h⟩ := ok_bind_eq_ok h
    obtain ⟨hbody, hstep⟩ := ok_bind_eq_ok h
    simp only [Stmt.all, Bool.and_eq_true]
    exact ⟨Assign.all_isMeasured hinit, Expr.all_isMeasured hcondition, Assign.all_isMeasured hstep,
      Stmt.allOf_isMeasured hbody⟩
  | .branch condition yes no =>
    simp only [Stmt.check] at h
    obtain ⟨hcondition, h⟩ := ok_bind_eq_ok h
    obtain ⟨hyes, hno⟩ := ok_bind_eq_ok h
    simp only [Stmt.all, Bool.and_eq_true]
    exact ⟨Expr.all_isMeasured hcondition, Stmt.allOf_isMeasured hyes, Stmt.allOption_isMeasured hno⟩
  | .block body =>
    simp only [Stmt.check] at h
    simp only [Stmt.all]
    exact Stmt.allOf_isMeasured h

theorem Stmt.allOf_isMeasured {body : List Stmt} (h : Stmt.checkAll body = .ok ()) :
    Stmt.allOf Expr.isMeasured Call.isMeasured body = true := by
  match body with
  | [] => rfl
  | stmt :: body =>
    simp only [Stmt.checkAll] at h
    simp only [Stmt.allOf, Bool.and_eq_true]
    exact ⟨Stmt.all_isMeasured (ok_bind_eq_ok h).1, Stmt.allOf_isMeasured (ok_bind_eq_ok h).2⟩

theorem Stmt.allOption_isMeasured {no : Option (List Stmt)} (h : Stmt.checkOption no = .ok ()) :
    Stmt.allOption Expr.isMeasured Call.isMeasured no = true := by
  match no with
  | none => rfl
  | some body =>
    simp only [Stmt.checkOption] at h
    simp only [Stmt.allOption]
    exact Stmt.allOf_isMeasured h

end

theorem checkNames_nodup {functions : List Function} {earlier : List String}
    (h : checkNames earlier functions = .ok ()) :
    (functions.map Function.name).Nodup ∧ ∀ f ∈ functions, f.name ∉ earlier := by
  induction functions generalizing earlier with
  | nil => simp
  | cons f functions ih =>
    rw [checkNames] at h
    split at h
    · cases h
    · rename_i hf
      obtain ⟨hnodup, hearlier⟩ := ih h
      refine ⟨List.nodup_cons.2 ⟨fun hm => ?_, hnodup⟩, fun g hg => ?_⟩
      · obtain ⟨g, hg, hname⟩ := List.mem_map.1 hm
        exact hearlier g hg (by simp [hname])
      · rcases List.mem_cons.1 hg with rfl | hg
        · exact hf
        · exact fun hm => hearlier g hg (List.mem_cons_of_mem _ hm)

theorem checkBodies_ok {functions : List Function} (h : checkBodies functions = .ok ()) :
    ∀ f ∈ functions, Stmt.checkAll f.body = .ok () := by
  induction functions with
  | nil => simp
  | cons f functions ih =>
    obtain ⟨hf, hrest⟩ := ok_bind_eq_ok h
    intro g hg
    rcases List.mem_cons.1 hg with rfl | hg
    · exact hf
    · exact ih hrest g hg

/-- A tree that has code has functions of different names, and gives variables to the builtin. -/
theorem Tree.check_ok {tree : Tree} (h : tree.check = .ok ()) :
    (tree.functions.map Function.name).Nodup ∧
      tree.all Expr.isMeasured Call.isMeasured = true := by
  obtain ⟨hnames, hbodies⟩ := ok_bind_eq_ok h
  refine ⟨(checkNames_nodup hnames).1, ?_⟩
  rw [Tree.all, List.all_eq_true]
  exact fun f hf => Stmt.allOf_isMeasured (checkBodies_ok hbodies f hf)

/-! ## Bodies that end with a `return` -/

/-- A body that ends with a `return` is one, or has one at the end of its rest. -/
@[elab_as_elim]
theorem Block.endsWithReturn_induction {motive : (body : Block) → body.endsWithReturn = true → Prop}
    (last : ∀ value, motive [.ret value] rfl)
    (step : ∀ stmt body (he : Block.endsWithReturn body = true), motive body he →
      ∀ he', motive (stmt :: body) he')
    (body : Block) (he : body.endsWithReturn = true) : motive body he := by
  induction body with
  | nil => cases he
  | cons stmt body ih =>
    cases body with
    | nil =>
      cases stmt with
      | ret value => exact last value
      | _ => cases he
    | cons stmt' body =>
      have hrest : Block.endsWithReturn (stmt' :: body) = true := by
        simpa [Block.endsWithReturn, List.getLast?_cons_cons] using he
      exact step stmt _ hrest (ih hrest) he

theorem Block.anyReturn_of_endsWithReturn {body : Block} (he : body.endsWithReturn = true) :
    Stmt.anyReturn body = true := by
  induction body, he using Block.endsWithReturn_induction with
  | last value => rfl
  | step stmt body he ih => rw [Stmt.anyReturn, ih, Bool.or_true]

/-! ## Regular trees -/

/-- A call of a function may pass so many arguments, and may need a value or not. -/
def Tree.suits (tree : Tree) (name : String) (count : Nat) (needed : Bool) : Bool :=
  name = lengthName ||
    match tree.function? name with
    | some f => f.params.length = count && (!needed || f.yields)
    | none => true

def Expr.isRegular (tree : Tree) : Expr → Bool
  | .call name args _ => tree.suits name args.length true
  | _ => true

def Call.isRegular (tree : Tree) (c : Call) : Bool :=
  tree.suits c.name c.args.length false

/-- The function `main` is declared and has no parameters, every call of a declared function passes as many
arguments as the function has parameters, and a call that stands as an operand names the builtin `len`,
a function that is not declared, or one that has a `return`. -/
structure Tree.Regular (tree : Tree) : Prop where
  entry : ∃ f, tree.function? Program.entryName = some f ∧ f.params = []
  calls : tree.all (Expr.isRegular tree) (Call.isRegular tree) = true

/-- What is needed of an expression for its code to do what it says. -/
def Expr.fits (tree : Tree) (e : Expr) : Bool :=
  e.isNamed && (e.isMeasured && e.isRegular tree)

def Call.fits (tree : Tree) (c : Call) : Bool :=
  c.isNamed && (c.isMeasured && c.isRegular tree)

end CMinusMinus
