import CMinusMinus.Proofs.Code.Realization
import CMinusMinus.Proofs.Ideal.Lockstep
import CMinusMinus.Proofs.Source.Names
import Mathlib

/-!
# Code does what its tree says

The code of an expression realizes the evaluation of the expression, and so does the code of a statement, if
calls are realized; and a call is realized with one unit of fuel more than the calls inside it. From the
entry on, the machine then does what the whole tree says.
-/

namespace CMinusMinus

open CMinusMinus.Ideal (execute turn runFrom)

/-- Calls of functions with as many arguments as they have parameters are realized. -/
def Calls (tree : Tree) (p : Program) (fuel : Nat) (call : String → List Datum → Eval Datum) : Prop :=
  ∀ (name : String) (args : List Datum) (c : Context) (stack : List Datum) (k : Nat) (s : Scene)
    (rest : List Program.Line), Text.isIdentifier name = true →
    (∀ f, tree.function? name = some f → f.params.length = args.length) →
    p.Located k (.instruction ⟨.call, [name]⟩ :: rest) →
    Realizes p fuel (s.state c (args ++ stack) k) s (call name args) fun v s' t' =>
      ∃ f, tree.function? name = some f ∧
        At p c (if f.yields then v :: stack else stack) rest s' t'

section Expressions

variable {tree : Tree} {p : Program} {fuel : Nat} {call : String → List Datum → Eval Datum}
  {c : Context} {rest : List Program.Line}

mutual

/-- The code of an expression leaves its value on the stack. -/
theorem Expr.realizes (hcall : Calls tree p fuel call) {e : Expr} (hf : e.all (Expr.fits tree) = true)
    {s : Scene} {stack : List Datum} {k : Nat} {code : List Instruction}
    (h : p.Located k (instructionLines (e.code code) rest)) :
    Realizes p fuel (s.state c stack k) s (e.eval call)
      fun v => At p c (v :: stack) (instructionLines code rest) := by
  match e with
  | .int value =>
    simp only [Expr.code, Expr.eval] at h ⊢
    exact realizes_literal h
  | .place name [] loc =>
    simp only [Expr.all, Bool.and_eq_true, Expr.fits, Expr.isNamed] at hf
    simp only [Expr.code, Expr.eval] at h ⊢
    exact realizes_variable (Text.readInt?_of_isIdentifier hf.1.1) h
  | .place name (index :: more) loc =>
    simp only [Expr.all, Expr.allOf, Bool.and_eq_true] at hf
    simp only [Expr.code, Expr.eval] at h ⊢
    refine (Expr.realizes hcall hf.2.1 h).bind ?_
    rintro v s' _ ⟨k', rfl, h'⟩
    exact realizes_element h'
  | .call name args loc =>
    simp only [Expr.all, Bool.and_eq_true, Expr.fits, Expr.isNamed] at hf
    obtain ⟨⟨hname, hmeasured, hregular⟩, hargs⟩ := hf
    simp only [Expr.code, Expr.eval] at h ⊢
    by_cases hlen : name = lengthName
    · simp only [if_pos hlen] at h ⊢
      obtain ⟨array, indices, loc', rfl⟩ :=
        isVariable_iff (by simpa [Expr.isMeasured, hlen] using hmeasured)
      exact realizes_length h
    · simp only [if_neg hlen] at h ⊢
      refine (Expr.realizes_args hcall hargs h).bind ?_
      rintro values s' _ ⟨hlength, k', rfl, h'⟩
      have hsuits : ∀ f, tree.function? name = some f →
          f.params.length = values.length ∧ f.yields = true := by
        intro f hfunction
        simpa [Expr.isRegular, Tree.suits, hlen, hfunction, hlength] using hregular
      refine Realizes.imp (hcall name values c stack k' s' _ hname (fun f hf => (hsuits f hf).1) h') ?_
      rintro v s'' t - ⟨f, hfunction, hat⟩
      rw [(hsuits f hfunction).2] at hat
      exact hat
  | .neg operand =>
    simp only [Expr.all, Bool.and_eq_true] at hf
    simp only [Expr.code, Expr.eval] at h ⊢
    refine (Expr.realizes hcall hf.2 h).bind ?_
    rintro v s' _ ⟨k', rfl, h'⟩
    exact realizes_negate h'
  | .binary op lhs rhs =>
    simp only [Expr.all, Bool.and_eq_true] at hf
    simp only [Expr.code, Expr.eval] at h ⊢
    refine (Expr.realizes hcall hf.2.1 h).bind ?_
    rintro a s' _ ⟨k', rfl, h'⟩
    refine (Expr.realizes hcall hf.2.2 h').bind ?_
    rintro b s'' _ ⟨k'', rfl, h''⟩
    exact realizes_operate h''

/-- The code of arguments leaves their values on the stack, the first one on top. -/
theorem Expr.realizes_args (hcall : Calls tree p fuel call) {args : List Expr}
    (hf : Expr.allOf (Expr.fits tree) args = true) {s : Scene} {stack : List Datum} {k : Nat}
    {code : List Instruction} (h : p.Located k (instructionLines (Expr.argsCode args code) rest)) :
    Realizes p fuel (s.state c stack k) s (Expr.evalArgs call args) fun values s' t' =>
      values.length = args.length ∧ At p c (values ++ stack) (instructionLines code rest) s' t' := by
  match args with
  | [] =>
    simp only [Expr.argsCode, Expr.evalArgs] at h ⊢
    exact realizes_pure ⟨rfl, k, rfl, h⟩
  | arg :: args =>
    simp only [Expr.allOf, Bool.and_eq_true] at hf
    simp only [Expr.argsCode, Expr.evalArgs] at h ⊢
    refine (Expr.realizes_args hcall hf.2 h).bind ?_
    rintro values s' _ ⟨hlength, k', rfl, h'⟩
    refine (Expr.realizes hcall hf.1 h').bind ?_
    rintro v s'' _ ⟨k'', rfl, h''⟩
    exact realizes_pure ⟨congrArg (· + 1) hlength, k'', rfl, h''⟩

end

theorem Expr.realizes_test (hcall : Calls tree p fuel call) {condition : Expr}
    (hf : condition.all (Expr.fits tree) = true) {s : Scene} {stack : List Datum} {k target : Nat}
    {label : String} (hl : p.labels.get? label = some target)
    (h : p.Located k (instructionLines (condition.code [⟨.jz, [label]⟩]) rest)) :
    Realizes p fuel (s.state c stack k) s (condition.test call) (Tested p c stack rest target) := by
  refine (Expr.realizes hcall hf h).bind ?_
  rintro v s' _ ⟨k', rfl, h'⟩
  exact CMinusMinus.realizes_test hl h'

theorem Assign.realizes (hcall : Calls tree p fuel call) {a : Assign} (hf : a.all (Expr.fits tree) = true)
    {s : Scene} {stack : List Datum} {k : Nat} {code : List Instruction}
    (h : p.Located k (instructionLines (a.code code) rest)) :
    Realizes p fuel (s.state c stack k) s (a.exec call)
      fun _ => At p c stack (instructionLines code rest) := by
  obtain ⟨⟨name, indices, loc⟩, value⟩ := a
  simp only [Assign.all, Bool.and_eq_true] at hf
  cases indices with
  | nil =>
    refine (Expr.realizes hcall hf.1 h).bind ?_
    rintro v s' _ ⟨k', rfl, h'⟩
    exact realizes_bind h'
  | cons index more =>
    simp only [Expr.allOf, Bool.and_eq_true] at hf
    refine (Expr.realizes hcall hf.1 h).bind ?_
    rintro v s' _ ⟨k', rfl, h'⟩
    refine (Expr.realizes hcall hf.2.1 h').bind ?_
    rintro i s'' _ ⟨k'', rfl, h''⟩
    exact realizes_store h''

end Expressions

/-! ## Statements -/

/-- Where a statement leaves the machine: before the lines that follow, or at a return with the value on the
stack. -/
def Done (p : Program) (c : Context) (stack : List Datum) (rest : List Program.Line) (returns : Bool) :
    Option Datum → Scene → Ideal.State → Prop
  | none => At p c stack rest
  | some v => fun s t => returns = true ∧ At p c (v :: stack) [.instruction (.ret 1)] s t

theorem Done.imp {p : Program} {c : Context} {stack : List Datum} {rest : List Program.Line}
    {returns returns' : Bool} {result : Option Datum} {s : Scene} {t : Ideal.State}
    (h : Done p c stack rest returns result s t) (hr : returns = true → returns' = true) :
    Done p c stack rest returns' result s t := by
  cases result with
  | none => exact h
  | some v => exact ⟨hr h.1, h.2⟩

theorem Program.Located.allLines {p : Program} {yields : Yields} {k next : Nat} {body : List Stmt}
    {rest : List Line} (h : p.Located k (Stmt.allLines yields next body rest)) :
    ∃ l, p.Located l rest := by
  have h : p.Located k (Stmt.allLines yields next body [] ++ rest) := by
    rw [← Stmt.allLines_append]
    exact h
  exact h.exists_right

section Loops

variable {tree : Tree} {p : Program} {fuel : Nat} {call : String → List Datum → Eval Datum}
  {c : Context} {stack : List Datum} {condition : Expr} {body : Eval (Option Datum)} {step : Eval Unit}
  {returns : Bool} {next bodyNext : Nat} {statements : List Stmt} {stepCode : List Instruction}
  {rest : List Program.Line}

/-- The code of a loop does what the loop says: every round ends with a jump to its start, so a loop that
exhausts its rounds takes as many turns. -/
theorem realizes_loopLines (hcall : Calls tree p fuel call)
    (hcondition : condition.all (Expr.fits tree) = true)
    (hbody : ∀ {after : List Program.Line} (s : Scene) k,
      p.Located k (Stmt.allLines tree.yields bodyNext statements after) →
      Realizes p fuel (s.state c stack k) s body (Done p c stack after returns))
    (hstep : ∀ {after : List Program.Line} (s : Scene) k,
      p.Located k (instructionLines stepCode after) →
      Realizes p fuel (s.state c stack k) s step fun _ => At p c stack after)
    {s : Scene} {k : Nat} (h : p.Located k
      (loopLines next condition (Stmt.allLines tree.yields bodyNext statements) stepCode rest)) :
    Realizes p fuel (s.state c stack k) s (Eval.loop (condition.test call) body step fuel)
      (Done p c stack rest returns) := by
  obtain ⟨hstart, hcode⟩ := h
  obtain ⟨l, hl⟩ := hcode.instructionLines
  obtain ⟨l', hl'⟩ := hl.allLines
  obtain ⟨stop, hstop, hrest⟩ := hl'.instructionLines
  -- no more rounds are left than there is fuel for the evaluations inside a round
  have hrounds : ∀ rounds ≤ fuel, ∀ s : Scene, Realizes p rounds (s.state c stack k) s
      (Eval.loop (condition.test call) body step rounds) (Done p c stack rest returns) := by
    intro rounds hr s
    induction rounds generalizing s with
    | zero => exact realizes_exhausted rfl
    | succ rounds ih =>
      refine ((Expr.realizes_test hcall hcondition hstop hcode).mono hr).bind fun holds s' t ht => ?_
      cases holds with
      | false =>
        obtain rfl : t = s'.state c stack stop := ht
        exact realizes_pure ⟨stop, rfl, hrest⟩
      | true =>
        obtain ⟨l, rfl, hl⟩ := ht
        refine ((hbody s' l hl).mono hr).bind fun result s'' t hd => ?_
        cases result with
        | some v => exact realizes_pure hd
        | none =>
          obtain ⟨l', rfl, hl'⟩ := hd
          rw [instructionLines_append_code] at hl'
          refine ((hstep s'' l' hl').mono hr).bind ?_
          rintro _ u _ ⟨l'', rfl, hl''⟩
          exact (ih (Nat.le_of_succ_le hr) u).turn (turn_jump hstart hl'') (Nat.le_refl _)
  exact hrounds fuel (Nat.le_refl fuel) s

end Loops

section Statements

variable {tree : Tree} {p : Program} {fuel : Nat} {call : String → List Datum → Eval Datum}
  {c : Context} {stack : List Datum}

/-- A call that stands as a statement leaves nothing. -/
theorem Call.realizes (hcall : Calls tree p fuel call) {d : Call} (hd : d.fits tree = true)
    (hf : Expr.allOf (Expr.fits tree) d.args = true) {s : Scene} {k : Nat} {rest : List Program.Line}
    (h : p.Located k (instructionLines
      (d.code (if tree.yields.leavesValue d.name then [.drop] else [])) rest)) :
    Realizes p fuel (s.state c stack k) s ((Expr.call d.name d.args d.loc).eval call)
      fun _ => At p c stack rest := by
  obtain ⟨name, args, loc⟩ := d
  simp only [Call.fits, Bool.and_eq_true, Call.isNamed] at hd
  obtain ⟨hname, hmeasured, hregular⟩ := hd
  -- after the call its value is dropped, if there is one
  have hdrop : ∀ (v : Datum) (s' : Scene) (t : Ideal.State),
      At p c (v :: stack) (instructionLines [.drop] rest) s' t →
      ∃ n t', runFrom p n t = (t', none) ∧ At p c stack rest s' t' := by
    rintro v s' _ ⟨k', rfl, h'⟩
    have he : (execute .drop p).run (s'.state c (v :: stack) k') = .ok .next (s'.state c stack k') := rfl
    exact ⟨1, _, (Ideal.runFrom_one ..).trans (Ideal.turn_ok h'.1 he), k' + 1, rfl, h'.2⟩
  simp only [Call.code, Expr.code, Expr.eval, Yields.leavesValue] at h ⊢
  by_cases hlen : name = lengthName
  · obtain ⟨array, indices, loc', rfl⟩ :=
      isVariable_iff (by simpa [Call.isMeasured, Expr.isMeasured, hlen] using hmeasured)
    simp only [hlen, decide_true, Bool.true_or, if_true] at h ⊢
    exact (realizes_length h).further fun v s' t _ hat => hdrop v s' t hat
  · simp only [hlen, decide_false, Bool.false_or, if_false] at h ⊢
    refine (Expr.realizes_args hcall hf h).bind ?_
    rintro values s' _ ⟨hlength, k', rfl, h'⟩
    have hsuits : ∀ f, tree.function? name = some f → f.params.length = values.length := by
      intro f hfunction
      simpa [Call.isRegular, Tree.suits, hlen, hfunction, hlength] using hregular
    refine Realizes.further (hcall name values c stack k' s' _ hname hsuits h') ?_
    rintro v s'' t - ⟨f, hfunction, hat⟩
    rw [lookup_yields, hfunction] at hat
    cases hy : f.yields with
    | true =>
      simp only [hy, Option.map_some, Option.getD_some, if_true] at hat
      exact hdrop v s'' t hat
    | false =>
      simp only [hy, Option.map_some, Option.getD_some] at hat
      exact ⟨0, t, rfl, hat⟩

/-- Behind the first block of a conditional, control goes on behind the second one. -/
theorem runs_elseLines {otherwise next k : Nat} {no : Option (List Stmt)} {rest : List Program.Line}
    (h : p.Located k (Stmt.elseLines tree.yields otherwise next no
      (.label (generatedLabel (otherwise + 1)) :: rest))) (s : Scene) :
    ∃ n t, runFrom p n (s.state c stack k) = (t, none) ∧ At p c stack rest s t := by
  cases no with
  | none => exact ⟨0, _, rfl, k, rfl, h.2.2⟩
  | some body =>
    obtain ⟨stop, hstop, hrest⟩ := h.2.2.allLines
    exact ⟨1, _, (Ideal.runFrom_one ..).trans (turn_jump hstop h), stop, rfl, hrest⟩

mutual

/-- The code of a statement does what the statement says. -/
theorem Stmt.realizes (hcall : Calls tree p fuel call) {stmt : Stmt}
    (hf : stmt.all (Expr.fits tree) (Call.fits tree) = true) {s : Scene} {k next : Nat}
    {rest : List Program.Line} (h : p.Located k (stmt.lines tree.yields next rest)) :
    Realizes p fuel (s.state c stack k) s (stmt.exec call fuel)
      (Done p c stack rest stmt.hasReturn) := by
  match stmt with
  | .print value =>
    simp only [Stmt.all, Stmt.lines, Stmt.exec] at hf h ⊢
    refine (Expr.realizes hcall hf h).bind ?_
    rintro v s' _ ⟨k', rfl, h'⟩
    exact (realizes_print h').bind fun _ _ _ hat => realizes_pure hat
  | .ret value =>
    simp only [Stmt.all, Stmt.lines, Stmt.exec] at hf h ⊢
    refine (Expr.realizes hcall hf h).bind ?_
    rintro v s' _ ⟨k', rfl, h'⟩
    exact realizes_pure ⟨rfl, k', rfl, h'.1, trivial⟩
  | .assign a =>
    simp only [Stmt.all, Stmt.lines, Stmt.exec] at hf h ⊢
    exact (Assign.realizes hcall hf h).bind fun _ _ _ hat => realizes_pure hat
  | .array name size =>
    simp only [Stmt.all, Stmt.lines, Stmt.exec] at hf h ⊢
    refine (Expr.realizes hcall hf h).bind ?_
    rintro v s' _ ⟨k', rfl, h'⟩
    exact (realizes_makeArray h').bind fun _ _ _ hat => realizes_pure hat
  | .call d =>
    simp only [Stmt.all, Bool.and_eq_true] at hf
    simp only [Stmt.lines, Stmt.exec] at h ⊢
    exact (Call.realizes hcall hf.1 hf.2 h).bind fun _ _ _ hat => realizes_pure hat
  | .whileLoop condition body =>
    simp only [Stmt.all, Bool.and_eq_true] at hf
    simp only [Stmt.lines, Stmt.exec] at h ⊢
    refine realizes_loopLines hcall hf.1 (fun s l hl => Stmt.realizes_all hcall hf.2 hl) ?_ h
    exact fun s l hl => realizes_pure ⟨l, rfl, hl⟩
  | .forLoop init condition step body =>
    simp only [Stmt.all, Bool.and_eq_true] at hf
    simp only [Stmt.lines, Stmt.exec] at h ⊢
    refine (Assign.realizes hcall hf.1 h).bind ?_
    rintro _ s' _ ⟨k', rfl, h'⟩
    exact realizes_loopLines hcall hf.2.1 (fun s l hl => Stmt.realizes_all hcall hf.2.2.2 hl)
      (fun s l hl => Assign.realizes hcall hf.2.2.1 hl) h'
  | .branch condition yes no =>
    simp only [Stmt.all, Bool.and_eq_true] at hf
    simp only [Stmt.lines, Stmt.exec] at h ⊢
    obtain ⟨l, hl⟩ := h.instructionLines
    obtain ⟨l', hl'⟩ := hl.allLines
    obtain ⟨target, htarget, hno⟩ := Stmt.realizes_else hcall hf.2.2 hl'
    refine (Expr.realizes_test hcall hf.1 htarget h).bind fun holds s' t ht => ?_
    cases holds with
    | false =>
      obtain rfl : t = s'.state c stack target := ht
      exact (hno s').imp fun _ _ _ _ hd => hd.imp fun hr => by simp [Stmt.hasReturn, hr]
    | true =>
      obtain ⟨k', rfl, h'⟩ := ht
      refine (Stmt.realizes_all hcall hf.2.1 h').further fun result s'' t _ hd => ?_
      cases result with
      | some v => exact ⟨0, t, rfl, hd.imp fun hr => by simp [Stmt.hasReturn, hr]⟩
      | none =>
        obtain ⟨k'', rfl, h''⟩ := hd
        exact runs_elseLines h'' s''
  | .block body =>
    simp only [Stmt.all, Stmt.lines, Stmt.exec] at hf h ⊢
    exact Stmt.realizes_all hcall hf h

theorem Stmt.realizes_all (hcall : Calls tree p fuel call) {body : List Stmt}
    (hf : Stmt.allOf (Expr.fits tree) (Call.fits tree) body = true) {s : Scene} {k next : Nat}
    {rest : List Program.Line} (h : p.Located k (Stmt.allLines tree.yields next body rest)) :
    Realizes p fuel (s.state c stack k) s (Stmt.execAll call fuel body)
      (Done p c stack rest (Stmt.anyReturn body)) := by
  match body with
  | [] =>
    simp only [Stmt.allLines, Stmt.execAll] at h ⊢
    exact realizes_pure ⟨k, rfl, h⟩
  | stmt :: body =>
    simp only [Stmt.allOf, Bool.and_eq_true] at hf
    simp only [Stmt.allLines, Stmt.execAll] at h ⊢
    refine (Stmt.realizes hcall hf.1 h).bind fun result s' t hd => ?_
    cases result with
    | some v => exact realizes_pure (hd.imp fun hr => by simp [Stmt.anyReturn, hr])
    | none =>
      obtain ⟨k', rfl, h'⟩ := hd
      exact (Stmt.realizes_all hcall hf.2 h').imp fun _ _ _ _ hd =>
        hd.imp fun hr => by simp [Stmt.anyReturn, hr]

/-- From the first label of a conditional on, the machine does what the else block says. -/
theorem Stmt.realizes_else (hcall : Calls tree p fuel call) {no : Option (List Stmt)}
    (hf : Stmt.allOption (Expr.fits tree) (Call.fits tree) no = true) {k otherwise next : Nat}
    {rest : List Program.Line} (h : p.Located k (Stmt.elseLines tree.yields otherwise next no
      (.label (generatedLabel (otherwise + 1)) :: rest))) :
    ∃ target, p.labels.get? (generatedLabel otherwise) = some target ∧ ∀ s : Scene,
      Realizes p fuel (s.state c stack target) s (Stmt.execOption call fuel no)
        (Done p c stack rest (Stmt.anyReturnOption no)) := by
  match no with
  | none => exact ⟨k, h.1, fun s => realizes_pure ⟨k, rfl, h.2.2⟩⟩
  | some body =>
    simp only [Stmt.allOption] at hf
    refine ⟨k + 1, h.2.1, fun s => ?_⟩
    simp only [Stmt.execOption]
    refine (Stmt.realizes_all hcall hf h.2.2).imp fun result s' t _ hd => ?_
    cases result with
    | some v => exact hd
    | none =>
      obtain ⟨k', rfl, h'⟩ := hd
      exact ⟨k', rfl, h'.2⟩

end

end Statements

/-! ## Calls -/

/-- A body that ends with a `return` does not come to its end without one. -/
theorem execAll_isSome {call : String → List Datum → Eval Datum} {rounds : Nat} {body : Block}
    (he : body.endsWithReturn = true) {s s' : Scene} {result : Option Datum}
    (h : (Stmt.execAll call rounds body).run s = .ok result s') : result.isSome := by
  induction body, he using Block.endsWithReturn_induction generalizing s with
  | last value =>
    simp only [Stmt.execAll, Stmt.exec, EStateM.run_bind] at h
    cases hv : (value.eval call).run s with
    | error stop u =>
      rw [hv] at h
      cases h
    | ok v u =>
      rw [hv] at h
      cases h
      rfl
  | step stmt body he ih =>
    simp only [Stmt.execAll, EStateM.run_bind] at h
    cases hr : (stmt.exec call rounds).run s with
    | error stop s'' =>
      rw [hr] at h
      cases h
    | ok first s'' =>
      rw [hr] at h
      cases first with
      | some v =>
        cases h
        rfl
      | none => exact ih h

section Calls

variable {tree : Tree} {p : Program} {fuel : Nat} {call : String → List Datum → Eval Datum}
  {c : Context} {stack : List Datum}

theorem runs_params {params : List String} {args : List Datum} (hl : params.length = args.length)
    {s : Scene} {k : Nat} {rest : List Program.Line}
    (h : p.Located k (instructionLines (params.map .bind) rest)) :
    ∃ n l, runFrom p n (s.state c (args ++ stack) k) =
      (((params.zip args).foldl (fun s binding => s.bind binding.1 binding.2) s).state c stack l, none) ∧
      p.Located l rest := by
  induction params generalizing args s k with
  | nil =>
    obtain rfl : args = [] := List.eq_nil_of_length_eq_zero hl.symm
    exact ⟨0, k, rfl, h⟩
  | cons name params ih =>
    cases args with
    | nil => cases hl
    | cons v args =>
      have he : (execute (.bind name) p).run (s.state c (v :: (args ++ stack)) k) =
          .ok .next ((s.bind name v).state c (args ++ stack) k) := rfl
      obtain ⟨n, l, hn, hrest⟩ := @ih args (Nat.succ.inj hl) (s.bind name v) (k + 1) h.2
      exact ⟨n + 1, l, (Ideal.runFrom_turn (Ideal.turn_ok h.1 he) n).trans hn, hrest⟩

/-- Where control falls off the end of a body, the epilogue leaves zero if a value is needed. -/
theorem runs_epilogue {f : Function} (he : f.body.endsWithReturn = false) {s : Scene} {k : Nat}
    {rest : List Program.Line} (h : p.Located k (instructionLines f.epilogue rest)) :
    ∃ n l, runFrom p n (s.state c stack k) =
      (s.state c (if f.yields then .int 0 :: stack else stack) l, none) ∧
      p.instructions[l]? = some (.ret (if f.yields then 1 else 0)) := by
  unfold Function.epilogue at h
  simp only [he, Bool.false_eq_true, if_false] at h
  cases hy : f.yields with
  | true =>
    simp only [hy, if_true] at h ⊢
    have hpush : (execute (.push "0") p).run (s.state c stack k) =
        .ok .next (s.state c (.int 0 :: stack) k) := rfl
    exact ⟨1, k + 1, (Ideal.runFrom_one ..).trans (Ideal.turn_ok h.1 hpush), h.2.1⟩
  | false =>
    simp only [hy, Bool.false_eq_true, if_false] at h ⊢
    exact ⟨0, k, rfl, h.1⟩

/-- From the label of a function on, the machine comes to a return with what the call of the function
leaves. -/
theorem Function.realizes (hcall : Calls tree p fuel call) {f : Function}
    (hf : Stmt.allOf (Expr.fits tree) (Call.fits tree) f.body = true) {args : List Datum}
    (hl : f.params.length = args.length) {s : Scene} {k next : Nat} {rest : List Program.Line}
    (h : p.Located k (f.lines tree.yields next rest)) :
    Realizes p fuel (({ s with locals := [] } : Scene).state c (args ++ stack) k) s
      (f.apply call fuel args) fun v s' t =>
        ∃ l, t = s'.state c (if f.yields then v :: stack else stack) l ∧
          p.instructions[l]? = some (.ret (if f.yields then 1 else 0)) := by
  obtain ⟨n, l, hn, hl'⟩ := @runs_params p c stack f.params args hl { s with locals := [] } k _ h.2
  have henter : Realizes p fuel (({ s with locals := [] } : Scene).state c (args ++ stack) k) s
      (modify (·.enter (f.params.zip args)))
      fun _ => At p c stack (Stmt.allLines tree.yields next f.body (instructionLines f.epilogue rest)) :=
    ⟨n, _, hn, l, rfl, hl'⟩
  refine henter.bind ?_
  rintro _ s' _ ⟨k', rfl, h'⟩
  have hbody : Realizes p fuel (s'.state c stack k') s' (Stmt.execAll call fuel f.body)
      fun result s'' t => ∃ l,
        t = s''.state c (if f.yields then result.getD (.int 0) :: stack else stack) l ∧
          p.instructions[l]? = some (.ret (if f.yields then 1 else 0)) := by
    refine (Stmt.realizes_all hcall hf h').further fun result s'' t hr hd => ?_
    cases result with
    | some v =>
      obtain ⟨hy, l, rfl, hi, -⟩ := hd
      have hy : f.yields = true := hy
      simp only [hy, if_true]
      exact ⟨0, _, rfl, l, rfl, hi⟩
    | none =>
      obtain ⟨l, rfl, hl⟩ := hd
      have he : f.body.endsWithReturn = false := by
        cases he : f.body.endsWithReturn with
        | false => rfl
        | true => cases execAll_isSome he hr
      obtain ⟨m, l', hm, hi⟩ := runs_epilogue he hl
      exact ⟨m, _, hm, l', rfl, hi⟩
  exact hbody.bind fun result s'' t ht => realizes_pure ht

end Calls

/-! ## Trees -/

theorem readCount?_ret (yields : Bool) :
    Text.readCount? (if yields then 1 else 0 : Nat).repr = some (if yields then 1 else 0) := by
  cases yields <;> decide

section Trees

variable {tree : Tree} {p : Program} (hp : tree.LaidOut p)
  (hf : ∀ f ∈ tree.functions, Stmt.allOf (Expr.fits tree) (Call.fits tree) f.body = true)
include hp hf

/-- A call takes one turn more than what is called. -/
theorem calls_invoke (fuel : Nat) : Calls tree p fuel (tree.invoke fuel) := by
  induction fuel with
  | zero => exact fun name args c stack k s rest _ _ _ => realizes_exhausted rfl
  | succ fuel ih =>
    intro name args c stack k s rest hname hparams h
    simp only [Tree.invoke]
    cases hfunction : tree.function? name with
    | none =>
      have he : (execute ⟨.call, [name]⟩ p).run (s.state c (args ++ stack) k) =
          .error (.unresolvedLabel name) (s.state c (args ++ stack) k) := by
        simp only [execute, Ideal.run_enter, hp.undeclared name hname hfunction]
      refine realizes_instruction h.1 ?_
      rw [he]
      exact ⟨rfl, rfl⟩
    | some f =>
      have hmem : f ∈ tree.functions := List.mem_of_find?_eq_some hfunction
      have hnamed : f.name = name := by simpa using List.find?_some hfunction
      obtain ⟨target, next, more, hlines⟩ := hp.declared f hmem
      have hlabel : p.labels.get? name = some target := hnamed ▸ hlines.1
      -- the turn of the call makes up for the unit of fuel that its body has less
      refine Realizes.turn (turn_call hlabel h) ?_ (Nat.le_refl _)
      show Realizes p fuel _ s (f.apply (tree.invoke fuel) fuel args >>= fun value =>
        modify ({ · with locals := s.locals }) >>= fun _ => pure value) _
      refine (Function.realizes ih (hf f hmem) (hparams f hfunction) hlines).bind ?_
      rintro v s' _ ⟨l, rfl, hi⟩
      have hheight : (if f.yields then 1 else 0 : Nat) ≤
          (if f.yields then v :: stack else stack).length := by
        cases f.yields <;> simp
      refine Realizes.turn (turn_ret (readCount?_ret f.yields) hheight hi) ?_ (Nat.le_succ _)
      exact ⟨0, _, rfl, f, rfl, k + 1, rfl, h.2⟩

/-- What the machine keeps during the outermost call. -/
def Context.outermost (p : Program) : Context := ⟨p.size, []⟩

/-- From the entry on, the machine does what the function `main` does, up to its return. -/
theorem realizes_main {f : Function} (hm : tree.function? Program.entryName = some f)
    (hparams : f.params = []) (fuel : Nat) :
    ∃ entry, p.entry? = some entry ∧
      Realizes p fuel (.initial entry p.size none) .start (f.apply (tree.invoke fuel) fuel [])
        fun v s t => ∃ l, t = s.state (.outermost p) (if f.yields then [v] else []) l ∧
          p.instructions[l]? = some (.ret (if f.yields then 1 else 0)) := by
  have hmem : f ∈ tree.functions := List.mem_of_find?_eq_some hm
  have hname : f.name = Program.entryName := by simpa using List.find?_some hm
  obtain ⟨entry, next, rest, hlines⟩ := hp.declared f hmem
  have hentry : p.labels.get? f.name = some entry := hlines.1
  rw [hname] at hentry
  have hlength : f.params.length = ([] : List Datum).length := congrArg List.length hparams
  have h := @Function.realizes tree p fuel _ (.outermost p) [] (calls_invoke hp hf fuel) f (hf f hmem) []
    hlength .start entry next rest hlines
  exact ⟨entry, hentry, h⟩

end Trees

/-! ## Runs -/

/-- The variables of a scene with their values, in the order of their names. -/
def Scene.variables (s : Scene) : List (String × Object) :=
  (s.locals.mergeSort fun a b => a.1 ≤ b.1).map fun b => (b.1, s.memory.object b.2)

/-- Some number of turns of a run comes to what an evaluation with some fuel came to: the same text printed,
and the same final values or the same cause of a fault. Where the evaluation was exhausted, so many turns
do not end the run. -/
def Comes {σ : Type} (run : Nat → Run σ) (fuel : Nat) (yields : Bool) :
    EStateM.Result Stop Scene Datum → Prop
  | .ok v s => ∃ turns stats, (run turns).state.output = s.output ∧ (run turns).outcome? =
    some (.ok ⟨if yields then [s.memory.object v] else [], s.variables, stats⟩)
  | .error (.failed cause) s => ∃ turns position, (run turns).state.output = s.output ∧
    (run turns).outcome? = some (.error ⟨cause, some position⟩)
  | .error .exhausted s => ∃ turns ≥ fuel, (run turns).state.output = s.output ∧
    (run turns).outcome? = none

/-- A return of the outermost call ends the run. -/
theorem turn_halt {p : Program} {s : Scene} {stack : List Datum} {k count : Nat}
    (hcount : Text.readCount? count.repr = some count) (hi : p.instructions[k]? = some (.ret count)) :
    turn p (s.state (.outermost p) stack k) = (s.state (.outermost p) stack k, some .completed) := by
  have he : (execute (.ret count) p).run (s.state (.outermost p) stack k) =
      .ok .halt (s.state (.outermost p) stack k) := by
    simp only [execute, Instruction.ret, Ideal.run_leave, hcount]
    rfl
  exact Ideal.turn_ok hi he

section Runs

variable {tree : Tree} {p : Program} (hp : tree.LaidOut p)
  (hf : ∀ f ∈ tree.functions, Stmt.allOf (Expr.fits tree) (Call.fits tree) f.body = true)
  {f : Function} (hm : tree.function? Program.entryName = some f) (hparams : f.params = [])
  {σ : Type} (meter : Meter) (observe : σ → Event → σ) (start : σ)
  (hlimits : ∀ turns fault, (p.run meter turns observe start).ending = some (.failed fault) →
    ¬ fault.cause.Excused false)
include hp hf hm hparams hlimits

theorem comes_evaluate (fuel : Nat) :
    Comes (fun turns => p.run meter turns observe start) fuel f.yields (tree.evaluate fuel) := by
  obtain ⟨entry, hentry, h⟩ := realizes_main hp hf hm hparams fuel
  have hrun := fun turns => Program.run_pictured false hentry meter observe start (hlimits turns)
  simp only [Bool.false_eq_true, if_false] at hrun
  rw [Tree.evaluate, hm]
  dsimp only
  unfold Realizes at h
  rcases hr : (f.apply (tree.invoke fuel) fuel []).run .start with ⟨v, s⟩ | ⟨_ | cause, s⟩
  · rw [hr] at h
    obtain ⟨n, _, hn, l, rfl, hi⟩ := h
    have hended : runFrom p (n + 1) (.initial entry p.size none) =
        (s.state (.outermost p) (if f.yields then [v] else []) l, some .completed) := by
      rw [Ideal.runFrom_add hn, Ideal.runFrom_one, turn_halt (readCount?_ret f.yields) hi]
    obtain ⟨hending, address, hpicture⟩ := hrun (n + 1)
    rw [hended] at hending hpicture
    refine ⟨n + 1, ?_⟩
    dsimp only
    generalize p.run meter (n + 1) observe start = run at hending hpicture ⊢
    refine ⟨run.state.heap.stats run.state.collections, hpicture.output.symm, ?_⟩
    rw [Run.outcome?, hending]
    refine (congrArg some hpicture.outcome_eq).trans ?_
    cases f.yields <;> rfl
  · rw [hr] at h
    obtain ⟨n, hge, t, hn, ho⟩ := h
    obtain ⟨hending, address, hpicture⟩ := hrun n
    rw [hn] at hending hpicture
    refine ⟨n, hge, hpicture.output.symm.trans ho, ?_⟩
    rw [Run.outcome?, hending]
    rfl
  · rw [hr] at h
    obtain ⟨n, t, position, hn, ho⟩ := h
    obtain ⟨hending, address, hpicture⟩ := hrun n
    rw [hn] at hending hpicture
    refine ⟨n, position, hpicture.output.symm.trans ho, ?_⟩
    rw [Run.outcome?, hending]
    rfl

/-- More fuel than the turns of a run that ends is not exhausted. -/
theorem evaluate_ended {turns fuel : Nat} (hended : (p.run meter turns observe start).ending.isSome)
    (hfuel : turns < fuel) (s : Scene) : tree.evaluate fuel ≠ .error .exhausted s := by
  intro hs
  have h := comes_evaluate hp hf hm hparams meter observe start hlimits fuel
  rw [hs] at h
  obtain ⟨n, hge, -, hnone⟩ := h
  obtain ⟨ending, hsome⟩ := Option.isSome_iff_exists.1 hended
  have hn := Program.run_ended (Nat.le_trans (Nat.le_of_lt hfuel) hge) hsome
  rw [Run.outcome?, hn] at hnone
  cases hnone

end Runs

/-- The code of a tree does what the tree says, where no limit stops it. With whatever fuel the tree is
evaluated, some number of turns comes to the same; and where the machine has come to an end, so has every
evaluation with more fuel than that took turns. -/
theorem Tree.run_compile {σ : Type} {source : String} {tree : Tree} {p : Program}
    (hparse : parse source = .ok tree) (hcompile : tree.compile = .ok p) (hregular : tree.Regular)
    (meter : Meter) (observe : σ → Event → σ) (start : σ)
    (hlimits : ∀ turns fault, (p.run meter turns observe start).ending = some (.failed fault) →
      fault.cause.kind ≠ .recursionError ∧ fault.cause.kind ≠ .memoryError) :
    ∃ main, tree.function? Program.entryName = some main ∧
      (∀ fuel, Comes (fun turns => p.run meter turns observe start) fuel main.yields
        (tree.evaluate fuel)) ∧
      ∀ turns, (p.run meter turns observe start).ending.isSome →
        ∀ fuel > turns, ∀ s, tree.evaluate fuel ≠ .error .exhausted s := by
  have hnamed := isNamed_of_parse hparse
  rw [Tree.isNamed, Bool.and_eq_true, List.all_eq_true] at hnamed
  cases hcheck : tree.check with
  | error e =>
    rw [Tree.compile, hcheck] at hcompile
    cases hcompile
  | ok _ =>
    rw [Tree.compile, hcheck] at hcompile
    cases hcompile
    obtain ⟨hnodup, hmeasured⟩ := Tree.check_ok hcheck
    have hp := laidOut_generate hnodup hnamed.2
    have hfits := Tree.all_and hnamed.1 (Tree.all_and hmeasured hregular.calls)
    rw [Tree.all, List.all_eq_true] at hfits
    obtain ⟨main, hmain, hparams⟩ := hregular.entry
    have hexcused := fun turns fault hfault => not_or.2 (hlimits turns fault hfault)
    refine ⟨main, hmain, fun fuel => ?_, fun turns hended fuel hfuel s => ?_⟩
    · exact comes_evaluate hp hfits hmain hparams meter observe start hexcused fuel
    · exact evaluate_ended hp hfits hmain hparams meter observe start hexcused hended hfuel s

set_option maxRecDepth 4000 in
/-- A program that calls a function for the value it prints, on a machine without limits. -/
theorem Tree.run_compile_half :
    let source := "half(n) { return n / 2; } main() { print half(9); }"
    let half : Function := ⟨"half", ["n"], [.ret (.binary .div (.place "n" [] ⟨1, 18⟩) (.int 2))], ⟨1, 1⟩⟩
    let main : Function := ⟨"main", [], [.print (.call "half" [.int 9] ⟨1, 42⟩)], ⟨1, 27⟩⟩
    let tree : Tree := ⟨[half, main]⟩
    let p := tree.generate
    let observe : List Event → Event → List Event := fun seen event => seen ++ [event]
    parse source = .ok tree ∧ tree.compile = .ok p ∧ tree.Regular ∧
    (∀ turns fault, (p.run .plain turns observe []).ending = some (.failed fault) →
      fault.cause.kind ≠ .recursionError ∧ fault.cause.kind ≠ .memoryError) ∧
    ∃ main, tree.function? Program.entryName = some main ∧
      (∀ fuel, Comes (fun turns => p.run .plain turns observe []) fuel main.yields
        (tree.evaluate fuel)) ∧
      ∀ turns, (p.run .plain turns observe []).ending.isSome →
        ∀ fuel > turns, ∀ s, tree.evaluate fuel ≠ .error .exhausted s := by
  intro source half main tree p observe
  have hparse : parse source = .ok tree := by cbv
  have hcompile : tree.compile = .ok p := rfl
  have hregular : tree.Regular := ⟨⟨main, rfl, rfl⟩, by decide⟩
  have hended : (p.run .plain 9 observe []).ending = some .completed := by cbv
  have hlimits : ∀ turns fault, (p.run .plain turns observe []).ending = some (.failed fault) →
      fault.cause.kind ≠ .recursionError ∧ fault.cause.kind ≠ .memoryError := by
    intro turns fault hfault
    cases Program.ending_unique hended hfault
  exact ⟨hparse, hcompile, hregular, hlimits,
    run_compile hparse hcompile hregular .plain observe [] hlimits⟩

end CMinusMinus
