import CMinusMinus.Proofs.Code.Chart
import CMinusMinus.Proofs.Code.Emission
import CMinusMinus.Proofs.Code.Writing
import CMinusMinus.Proofs.Optimizer.Constants

/-!
# Constant expressions of a source text

An expression is constant if it consists of integers and operators and nothing in it divides by zero. Where
one occurs in a text and no operator takes its value, the value goes to a statement, a call or an access to
an array, behind the code of other expressions at most, and no label points into its code. So whatever
stands around it, a folding pass leaves one `push` of the value.
-/

namespace CMinusMinus

/-! ## Constant expressions -/

/-- The value of an expression that consists of integers and operators, if all of them have a result. -/
def Expr.constant? : Expr → Option Int
  | .int value => some value
  | .place _ _ _ | .call _ _ _ => none
  | .neg operand => operand.constant?.map (- ·)
  | .binary op lhs rhs => do
    let a ← lhs.constant?
    let b ← rhs.constant?
    (op.apply a b).toOption

theorem toOption_eq_some {ε α : Type} {x : Except ε α} {a : α} (h : x.toOption = some a) : x = .ok a := by
  cases x with
  | error e => cases h
  | ok a' => exact congrArg Except.ok (Option.some.inj h)

/-- A constant expression is evaluated to its value wherever it stands. -/
theorem Expr.run_eval_of_constant? (call : String → List Datum → Eval Datum) {e : Expr} {value : Int}
    (h : e.constant? = some value) (s : Scene) : (e.eval call).run s = .ok (.int value) s := by
  match e with
  | .int n =>
    cases h
    rfl
  | .neg operand =>
    obtain ⟨a, ha, rfl⟩ := Option.map_eq_some_iff.1 h
    simp only [Expr.eval, EStateM.run_bind, Expr.run_eval_of_constant? call ha s]
    rfl
  | .binary op lhs rhs =>
    obtain ⟨a, ha, h⟩ := Option.bind_eq_some_iff.1 h
    obtain ⟨b, hb, h⟩ := Option.bind_eq_some_iff.1 h
    simp only [Expr.eval, EStateM.run_bind, Expr.run_eval_of_constant? call ha s,
      Expr.run_eval_of_constant? call hb s, Eval.operate, Eval.intOf, EStateM.run_pure, toOption_eq_some h]

/-- The code of a constant expression computes its value. -/
theorem Expr.computes {e : Expr} {value : Int} (h : e.constant? = some value) :
    Computes (e.code []) value := by
  match e with
  | .int _ =>
    cases h
    exact .push (Text.readInt?_numeral value)
  | .neg operand =>
    obtain ⟨a, ha, rfl⟩ := Option.map_eq_some_iff.1 h
    simp only [Expr.code]
    rw [Expr.code_eq]
    exact (Expr.computes ha).neg
  | .binary op lhs rhs =>
    obtain ⟨a, ha, h⟩ := Option.bind_eq_some_iff.1 h
    obtain ⟨b, hb, h⟩ := Option.bind_eq_some_iff.1 h
    simp only [Expr.code]
    rw [Expr.code_eq, rhs.code_eq, ← List.append_assoc]
    exact (Expr.computes ha).binary (Expr.computes hb) (toOption_eq_some h)

theorem Expr.code_eq_singleton {e : Expr} {value : Int} (h : e.constant? = some value) {i : Instruction}
    (hc : e.code [] = [i]) : i = .push (Text.numeral value) := by
  cases e with
  | int n =>
    cases h
    cases hc
    rfl
  | place _ _ _ | call _ _ _ => cases h
  | neg operand =>
    obtain ⟨a, ha, -⟩ := Option.map_eq_some_iff.1 h
    simp only [Expr.code] at hc
    rw [Expr.code_eq] at hc
    simp [List.append_eq_singleton_iff, (Expr.computes ha).ne_nil] at hc
  | binary op lhs rhs =>
    obtain ⟨a, ha, -⟩ := Option.bind_eq_some_iff.1 h
    simp only [Expr.code] at hc
    rw [Expr.code_eq, rhs.code_eq] at hc
    simp [List.append_eq_singleton_iff, (Expr.computes ha).ne_nil] at hc

/-! ## Occurrences -/

/-- An expression and the position of its code. -/
structure Site where
  position : Nat
  expr : Expr

mutual

/-- The expressions in one whose code stands at `k`, but for operands of operators: the index of an element
and the arguments of a call, and what is in them and in operands. Where there is code, there is one index at
most, and the builtin has a variable for its argument. -/
def Expr.inner (k : Nat) (e : Expr) : List Site :=
  match e with
  | .int _ | .place _ [] _ => []
  | .place _ (index :: _) _ => ⟨k, index⟩ :: index.inner k
  | .call name args _ => if name = lengthName then [] else Expr.argSites k args
  | .neg operand => operand.inner k
  | .binary _ lhs rhs => lhs.inner k ++ rhs.inner (k + (lhs.code []).length)

/-- The arguments of a call, of which the last one has its code at `k`, and the expressions in them. -/
def Expr.argSites (k : Nat) (args : List Expr) : List Site :=
  match args with
  | [] => []
  | arg :: args =>
    let start := k + (Expr.argsCode args []).length
    ⟨start, arg⟩ :: arg.inner start ++ Expr.argSites k args

end

/-- An expression that is no operand and whose code stands at `k`, and the expressions in it. -/
def Expr.sites (k : Nat) (e : Expr) : List Site :=
  ⟨k, e⟩ :: e.inner k

def Assign.sites (k : Nat) (a : Assign) : List Site :=
  a.value.sites k ++ match a.target.indices with
    | [] => []
    | index :: _ => index.sites (k + (a.value.code []).length)

section Sites

variable (yields : Yields)

mutual

/-- The expressions of a statement whose code stands at `k` and has labels from `next` on. Behind a condition
there is one instruction more, the jump. -/
def Stmt.sites (next k : Nat) (stmt : Stmt) : List Site :=
  match stmt with
  | .print value | .ret value | .array _ value => value.sites k
  | .assign a => a.sites k
  | .call c => (Expr.call c.name c.args c.loc).inner k
  | .whileLoop condition body =>
    condition.sites k ++ Stmt.allSites (next + 2) (k + ((condition.code []).length + 1)) body
  | .forLoop init condition step body =>
    let test := k + (init.code []).length
    let inside := test + ((condition.code []).length + 1)
    let behind := inside + instructionCount (Stmt.allLines yields (next + 2) body [])
    init.sites k ++ condition.sites test ++ Stmt.allSites (next + 2) inside body ++ step.sites behind
  | .branch condition yes no =>
    let inside := k + ((condition.code []).length + 1)
    let behind := inside + instructionCount (Stmt.allLines yields (next + 2) yes [])
    condition.sites k ++ Stmt.allSites (next + 2) inside yes ++
      Stmt.elseSites (next + 2 + Stmt.labelCounts yes) behind no
  | .block body => Stmt.allSites next k body

def Stmt.allSites (next k : Nat) (body : List Stmt) : List Site :=
  match body with
  | [] => []
  | stmt :: body => stmt.sites next k ++
    Stmt.allSites (next + stmt.labelCount) (k + instructionCount (stmt.lines yields next [])) body

/-- The expressions of an else block, which is jumped over from `k`. -/
def Stmt.elseSites (next k : Nat) (no : Option (List Stmt)) : List Site :=
  match no with
  | none => []
  | some body => Stmt.allSites next (k + 1) body

end

/-- The expressions of functions, the first of which stands at `k`. -/
def functionSites (next k : Nat) : List Function → List Site
  | [] => []
  | f :: rest => Stmt.allSites yields next (k + f.params.length) f.body ++
    functionSites (next + Stmt.labelCounts f.body) (k + instructionCount (f.lines yields next [])) rest

end Sites

/-- The expressions of a tree that are no operands of operators, with the positions of their code. -/
def Tree.sites (tree : Tree) : List Site :=
  functionSites tree.yields 0 0 tree.functions

/-! ## Code grows -/

mutual

/-- The code of an expression is not empty, and leaves a value as soon as it has computed anything. -/
theorem Expr.grows {e : Expr} (hm : e.all Expr.isMeasured = true) : e.code [] ≠ [] ∧ Grows (e.code []) := by
  match e with
  | .int _ | .place _ [] _ => exact ⟨List.cons_ne_nil _ _, grows_singleton fun _ => Int.le_refl 1⟩
  | .place name (index :: indices) loc =>
    simp only [Expr.all, Expr.allOf, Bool.and_eq_true] at hm
    simp only [Expr.code]
    rw [Expr.code_eq]
    exact ⟨by simp, (Expr.grows hm.2.1).2.snoc nofun⟩
  | .call name args loc =>
    simp only [Expr.all, Bool.and_eq_true] at hm
    simp only [Expr.code]
    split
    · rename_i hname
      simp only [Expr.isMeasured, hname, ne_eq, not_true_eq_false, decide_false, Bool.false_or] at hm
      obtain ⟨array, indices, loc, rfl⟩ := isVariable_iff hm.1
      exact ⟨List.cons_ne_nil _ _, grows_singleton nofun⟩
    · rw [Expr.argsCode_eq]
      exact ⟨by simp, (Expr.grows_args hm.2).snoc nofun⟩
  | .neg operand =>
    simp only [Expr.all, Bool.and_eq_true] at hm
    obtain ⟨hne, hgrows⟩ := Expr.grows hm.2
    simp only [Expr.code]
    rw [Expr.code_eq]
    refine ⟨by simp, hgrows.snoc fun hc _ => ?_⟩
    have hgain := hgrows.one_le hne hc
    exact (Int.add_zero _).symm ▸ hgain
  | .binary op lhs rhs =>
    simp only [Expr.all, Bool.and_eq_true] at hm
    obtain ⟨hne, hl⟩ := Expr.grows hm.2.1
    obtain ⟨hne', hr⟩ := Expr.grows hm.2.2
    simp only [Expr.code]
    rw [Expr.code_eq, rhs.code_eq, ← List.append_assoc]
    refine ⟨by simp, (hl.append hr).snoc fun hc _ => ?_⟩
    obtain ⟨hcl, hcr⟩ := List.forall_mem_append.1 hc
    have hgain := hl.one_le hne hcl
    have hgain' := hr.one_le hne' hcr
    rw [gain_append]
    simp only [Instruction.gain]
    omega

theorem Expr.grows_args {args : List Expr} (hm : Expr.allOf Expr.isMeasured args = true) :
    Grows (Expr.argsCode args []) := by
  match args with
  | [] => exact grows_nil
  | arg :: args =>
    simp only [Expr.allOf, Bool.and_eq_true] at hm
    simp only [Expr.argsCode]
    rw [Expr.argsCode_eq]
    exact (Expr.grows_args hm.2).append (Expr.grows hm.1).2

end

/-! ## Where sites stand -/

/-- Among lines at `k` the code of a site stands at its position, without labels inside; behind it there is
code that grows, and then an instruction that is more than a computation. -/
structure Hosts (k : Nat) (lines : List Program.Line) (site : Site) : Prop where
  place : ∃ before behind code i,
    lines = before ++ instructionLines (site.expr.code (code ++ [i])) behind ∧
      site.position = k + instructionCount before ∧ Grows code ∧ i.opcode.computes = false

section Hosts

variable {k : Nat} {site : Site} {rest : List Program.Line}

theorem Hosts.behind (xs : List Program.Line) (h : Hosts (k + instructionCount xs) rest site) :
    Hosts k (xs ++ rest) site := by
  obtain ⟨before, behind, code, i, rfl, hposition, hused⟩ := h
  refine ⟨xs ++ before, behind, code, i, (List.append_assoc ..).symm, ?_, hused⟩
  rw [hposition, instructionCount_append, Nat.add_assoc]

theorem Hosts.label {name : String} (h : Hosts k rest site) : Hosts k (.label name :: rest) site :=
  Hosts.behind [.label name] h

theorem Hosts.code (code : List Instruction) (h : Hosts (k + code.length) rest site) :
    Hosts k (instructionLines code rest) site := by
  refine Hosts.behind (code.map .instruction) ?_
  have hcount := instructionCount_instructionLines code []
  simp only [instructionLines, List.append_nil] at hcount
  rw [hcount]
  exact h

theorem hosts_here (e : Expr) {code : List Instruction} (hg : Grows code) {i : Instruction}
    (hi : i.opcode.computes = false) (more : List Instruction) :
    Hosts k (instructionLines (e.code (code ++ i :: more)) rest) ⟨k, e⟩ := by
  refine ⟨[], instructionLines more rest, code, i, ?_, rfl, hg, hi⟩
  rw [List.append_cons, Expr.code_append, instructionLines_append_code]
  rfl

mutual

theorem Expr.hosts_inner {e : Expr} (hm : e.all Expr.isMeasured = true) {k : Nat}
    (hs : site ∈ e.inner k) (more : List Instruction) :
    Hosts k (instructionLines (e.code more) rest) site := by
  match e with
  | .int _ | .place _ [] _ => simp [Expr.inner] at hs
  | .place name (index :: indices) loc =>
    simp only [Expr.all, Expr.allOf, Bool.and_eq_true] at hm
    simp only [Expr.inner, List.mem_cons] at hs
    simp only [Expr.code]
    rcases hs with rfl | hs
    · exact hosts_here index grows_nil rfl more
    · exact Expr.hosts_inner hm.2.1 hs _
  | .call name args loc =>
    simp only [Expr.all, Bool.and_eq_true] at hm
    simp only [Expr.inner] at hs
    simp only [Expr.code]
    split
    · simp [*] at hs
    · rw [if_neg ‹_›] at hs
      exact Expr.hosts_args hm.2 hs grows_nil rfl more
  | .neg operand =>
    simp only [Expr.all, Bool.and_eq_true] at hm
    simp only [Expr.inner] at hs
    exact Expr.hosts_inner hm.2 hs _
  | .binary op lhs rhs =>
    simp only [Expr.all, Bool.and_eq_true] at hm
    simp only [Expr.inner, List.mem_append] at hs
    simp only [Expr.code]
    rcases hs with hs | hs
    · exact Expr.hosts_inner hm.2.1 hs _
    · rw [Expr.code_eq, instructionLines_append_code]
      exact Hosts.code _ (Expr.hosts_inner hm.2.2 hs _)

/-- Behind an argument there is the code of those before it. -/
theorem Expr.hosts_args {args : List Expr} (hm : Expr.allOf Expr.isMeasured args = true) {k : Nat}
    (hs : site ∈ Expr.argSites k args) {code : List Instruction} (hg : Grows code) {i : Instruction}
    (hi : i.opcode.computes = false) (more : List Instruction) :
    Hosts k (instructionLines (Expr.argsCode args (code ++ i :: more)) rest) site := by
  match args with
  | [] => simp [Expr.argSites] at hs
  | arg :: args =>
    simp only [Expr.allOf, Bool.and_eq_true] at hm
    simp only [Expr.argSites, List.cons_append, List.mem_cons, List.mem_append] at hs
    simp only [Expr.argsCode]
    rcases hs with rfl | hs | hs
    · rw [Expr.argsCode_eq, instructionLines_append_code]
      exact Hosts.code _ (hosts_here arg hg hi more)
    · rw [Expr.argsCode_eq, instructionLines_append_code]
      exact Hosts.code _ (Expr.hosts_inner hm.1 hs _)
    · rw [Expr.code_eq, ← List.append_assoc]
      exact Expr.hosts_args hm.2 hs ((Expr.grows hm.1).2.append hg) hi more

end

theorem Expr.hosts {e : Expr} (hm : e.all Expr.isMeasured = true) (hs : site ∈ e.sites k)
    {code : List Instruction} (hg : Grows code) {i : Instruction} (hi : i.opcode.computes = false)
    (more : List Instruction) : Hosts k (instructionLines (e.code (code ++ i :: more)) rest) site := by
  rcases List.mem_cons.1 hs with rfl | hs
  · exact hosts_here e hg hi more
  · exact Expr.hosts_inner hm hs _

theorem Assign.hosts {a : Assign} (hm : a.all Expr.isMeasured = true) (hs : site ∈ a.sites k)
    (more : List Instruction) : Hosts k (instructionLines (a.code more) rest) site := by
  simp only [Assign.all, Bool.and_eq_true] at hm
  simp only [Assign.sites, List.mem_append] at hs
  unfold Assign.code
  cases htarget : a.target.indices with
  | nil =>
    simp only [htarget, List.not_mem_nil, or_false] at hs
    exact Expr.hosts hm.1 hs grows_nil rfl more
  | cons index indices =>
    simp only [htarget, Expr.allOf, Bool.and_eq_true] at hm hs
    rcases hs with hs | hs
    · -- Behind the value there is the code of the index.
      simp only [index.code_eq (_ :: more)]
      exact Expr.hosts hm.1 hs (Expr.grows hm.2.1).2 rfl more
    · rw [Expr.code_eq, instructionLines_append_code]
      exact Hosts.code _ (Expr.hosts hm.2.1 hs grows_nil rfl more)

theorem Hosts.test {condition : Expr} {label : String}
    (h : Hosts (k + ((condition.code []).length + 1)) rest site) :
    Hosts k (instructionLines (condition.code [⟨.jz, [label]⟩]) rest) site := by
  refine Hosts.code _ ?_
  rw [Expr.code_eq, List.length_append]
  exact h

variable (yields : Yields)

mutual

theorem Stmt.hosts {stmt : Stmt} (hm : stmt.all Expr.isMeasured Call.isMeasured = true) {next k : Nat}
    (hs : site ∈ stmt.sites yields next k) (rest : List Program.Line) :
    Hosts k (stmt.lines yields next rest) site := by
  match stmt with
  | .print value | .ret value | .array name value => exact Expr.hosts hm hs grows_nil rfl []
  | .assign a => exact Assign.hosts hm hs []
  | .call c => exact Expr.hosts_inner (e := .call c.name c.args c.loc) hm hs _
  | .whileLoop condition body =>
    simp only [Stmt.all, Bool.and_eq_true] at hm
    simp only [Stmt.sites, List.mem_append] at hs
    refine Hosts.label ?_
    rcases hs with hs | hs
    · exact Expr.hosts hm.1 hs grows_nil rfl []
    · exact Hosts.test (Stmt.hosts_all hm.2 hs _)
  | .forLoop init condition step body =>
    simp only [Stmt.all, Bool.and_eq_true] at hm
    simp only [Stmt.sites, List.mem_append, or_assoc] at hs
    simp only [Stmt.lines]
    rcases hs with hs | hs | hs | hs
    · exact Assign.hosts hm.1 hs []
    · exact Hosts.code _ (Hosts.label (Expr.hosts hm.2.1 hs grows_nil rfl []))
    · exact Hosts.code _ (Hosts.label (Hosts.test (Stmt.hosts_all hm.2.2.2 hs _)))
    · refine Hosts.code _ (Hosts.label (Hosts.test ?_))
      rw [allLines_eq]
      refine Hosts.behind _ ?_
      rw [instructionLines_append_code]
      exact Assign.hosts hm.2.2.1 hs []
  | .branch condition yes no =>
    simp only [Stmt.all, Bool.and_eq_true] at hm
    simp only [Stmt.sites, List.mem_append, or_assoc] at hs
    simp only [Stmt.lines]
    rcases hs with hs | hs | hs
    · exact Expr.hosts hm.1 hs grows_nil rfl []
    · exact Hosts.test (Stmt.hosts_all hm.2.1 hs _)
    · rw [allLines_eq]
      exact Hosts.test (Hosts.behind _ (Stmt.hosts_else hm.2.2 hs _))
  | .block body => exact Stmt.hosts_all hm hs rest

theorem Stmt.hosts_all {body : List Stmt} (hm : Stmt.allOf Expr.isMeasured Call.isMeasured body = true)
    {next k : Nat} (hs : site ∈ Stmt.allSites yields next k body) (rest : List Program.Line) :
    Hosts k (Stmt.allLines yields next body rest) site := by
  match body with
  | [] => simp [Stmt.allSites] at hs
  | stmt :: body =>
    simp only [Stmt.allOf, Bool.and_eq_true] at hm
    simp only [Stmt.allSites, List.mem_append] at hs
    simp only [Stmt.allLines]
    rcases hs with hs | hs
    · exact Stmt.hosts hm.1 hs _
    · rw [lines_eq]
      exact Hosts.behind _ (Stmt.hosts_all hm.2 hs _)

theorem Stmt.hosts_else {no : Option (List Stmt)}
    (hm : Stmt.allOption Expr.isMeasured Call.isMeasured no = true) {otherwise next k : Nat}
    (hs : site ∈ Stmt.elseSites yields next k no) (rest : List Program.Line) :
    Hosts k (Stmt.elseLines yields otherwise next no rest) site := by
  match no with
  | none => simp [Stmt.elseSites] at hs
  | some body => exact Hosts.code [_] (Hosts.label (Stmt.hosts_all hm hs rest))

end

theorem hosts_functions {functions : List Function}
    (hm : ∀ f ∈ functions, Stmt.allOf Expr.isMeasured Call.isMeasured f.body = true) {next k : Nat}
    (hs : site ∈ functionSites yields next k functions) :
    Hosts k (functionLines yields next functions) site := by
  induction functions generalizing next k with
  | nil => simp [functionSites] at hs
  | cons f functions ih =>
    obtain ⟨hf, hfunctions⟩ := List.forall_mem_cons.1 hm
    simp only [functionSites, List.mem_append] at hs
    rcases hs with hs | hs
    · refine Hosts.label (Hosts.code _ ?_)
      rw [List.length_map]
      exact Stmt.hosts_all yields hf hs _
    · rw [functionLines, ← List.nil_append (functionLines ..), Function.lines_append]
      exact Hosts.behind _ (ih hfunctions hs)

end Hosts

/-! ## Generated programs -/

namespace Program

variable {k : Nat}

theorem placed_append (xs ys : List Line) :
    placed k (xs ++ ys) = placed k xs ++ placed (k + instructionCount xs) ys := by
  induction xs generalizing k with
  | nil => rfl
  | cons line xs ih =>
    cases line with
    | label name => exact congrArg ((name, k) :: ·) ih
    | instruction i =>
      rw [instructionCount_cons, Nat.add_comm _ 1, ← Nat.add_assoc]
      exact ih

theorem placed_instructionLines (code : List Instruction) (rest : List Line) :
    placed k (instructionLines code rest) = placed (k + code.length) rest := by
  induction code generalizing k with
  | nil => rfl
  | cons i code ih =>
    rw [List.length_cons, Nat.add_comm _ 1, ← Nat.add_assoc]
    exact ih

theorem mem_placed {lines : List Line} {entry : String × Nat} (h : entry ∈ placed k lines) :
    k ≤ entry.2 ∧ entry.2 ≤ k + instructionCount lines := by
  induction lines generalizing k with
  | nil => cases h
  | cons line lines ih =>
    cases line with
    | label name =>
      rcases List.mem_cons.1 h with rfl | h
      · exact ⟨Nat.le_refl k, Nat.le_add_right ..⟩
      · exact ih h
    | instruction i =>
      obtain ⟨hlow, hhigh⟩ := ih h
      rw [instructionCount_cons]
      omega

/-- Every label of a program is placed where it stands among its lines. -/
theorem mem_placed_of_mem_entries {p : Program} {lines : List Line} {entry : String × Nat}
    (h : entry ∈ (lines.foldl push p).labels.entries) :
    entry ∈ p.labels.entries ∨ entry ∈ placed p.size lines := by
  induction lines generalizing p with
  | nil => exact .inl h
  | cons line lines ih =>
    cases line with
    | label name =>
      rcases ih h with h | h
      · by_cases hnew : p.labels.get? name = none
        · rw [entries_push_label hnew] at h
          rcases List.mem_append.1 h with h | h
          · exact .inl h
          · exact .inr (List.mem_singleton.1 h ▸ List.mem_cons_self ..)
        · exact .inl (by simpa [push, Labels.define, hnew] using h)
      · exact .inr (List.mem_cons_of_mem _ h)
    | instruction i =>
      have hsize : (p.push (.instruction i)).size = p.size + 1 := Array.size_push _
      have h := ih h
      rw [hsize] at h
      exact h

theorem instructions_ofLines (lines : List Line) :
    (ofLines lines).instructions.toList = lines.filterMap Line.instruction? :=
  instructions_foldl_push empty lines

theorem straight_ofLines (before : List Line) (code : List Instruction) (behind : List Line) :
    (ofLines (before ++ instructionLines code behind)).Straight (instructionCount before) code := by
  constructor
  · intro j i hi
    have hlength : (before.filterMap Line.instruction?).length = instructionCount before := by
      rw [List.length_filterMap_eq_countP, instructionCount]
      refine List.countP_congr fun line _ => ?_
      cases line <;> rfl
    have hcode : (code.map Line.instruction).filterMap Line.instruction? = code := by
      rw [List.filterMap_map]
      exact List.filterMap_some
    rw [← Array.getElem?_toList, instructions_ofLines, instructionLines, List.filterMap_append,
      List.filterMap_append, hcode, ← hlength, List.getElem?_append_right (Nat.le_add_right ..),
      Nat.add_sub_cancel_left, List.getElem?_append_left (List.getElem?_eq_some_iff.1 hi).1, hi]
  · intro j hk hj
    rw [Bool.eq_false_iff]
    intro hmark
    obtain ⟨name, hname⟩ := Labels.marks_iff.1 hmark
    rcases mem_placed_of_mem_entries hname with hname | hname
    · cases hname
    · have hsize : empty.size = 0 := rfl
      rw [placed_append, placed_instructionLines, hsize, Nat.zero_add] at hname
      rcases List.mem_append.1 hname with hname | hname
      · have hhigh := (mem_placed hname).2
        rw [Nat.zero_add] at hhigh
        exact Nat.not_le_of_lt hk hhigh
      · exact Nat.not_le_of_lt hj (mem_placed hname).1

end Program

theorem Tree.accepts_generate (tree : Tree) :
    ∀ i ∈ tree.generate.instructions, i.opcode.accepts i.args.length = true := by
  intro i hi
  rw [← Array.mem_toList_iff, generate, Program.instructions_ofLines] at hi
  obtain ⟨line, hline, hi⟩ := List.mem_filterMap.1 hi
  cases line with
  | label name => cases hi
  | instruction j =>
    cases hi
    have hnames : ∀ f ∈ tree.functions, Names (fun _ => True) f.names := fun _ _ _ _ => trivial
    obtain ⟨left, -, low, high, hi⟩ := emitted_functionLines tree.yields hnames hline
    exact hi.accepts

/-- A constant expression that is no operand stands at its position in the program, and between the places
that its ends move to there is one instruction in the folded program, the `push` of its value. -/
theorem Tree.fold_constant {tree : Tree} {p : Program} (h : tree.compile = .ok p) {site : Site}
    (hs : site ∈ tree.sites) {value : Int} (hv : site.expr.constant? = some value) :
    let stop := site.position + (site.expr.code []).length
    p.segment site.position stop = site.expr.code [] ∧
      p.fold.segment (movedTo p.foldKept site.position) (movedTo p.foldKept stop) =
        [.push (Text.numeral value)] := by
  intro stop
  obtain ⟨hcheck, rfl⟩ := Tree.compile_eq_ok h
  have hmeasured := (Tree.check_ok hcheck).2
  rw [Tree.all, List.all_eq_true] at hmeasured
  obtain ⟨before, behind, code, i, hlines, hposition, hgrows, hends⟩ :=
    (hosts_functions tree.yields hmeasured hs).place
  rw [Nat.zero_add] at hposition
  have hstraight : tree.generate.Straight site.position (site.expr.code [] ++ (code ++ [i])) := by
    rw [Tree.generate, Tree.lines, hlines, hposition, ← Expr.code_eq]
    exact Program.straight_ofLines before _ behind
  refine ⟨hstraight.left.place.segment_eq, ?_⟩
  obtain ⟨j, hstands, hsegment⟩ := Program.segment_fold tree.accepts_generate (Expr.computes hv)
    hstraight.left ⟨hstraight.right.place, hgrows, hends⟩
  rw [hsegment]
  rcases hstands with hcode | rfl
  · rw [Expr.code_eq_singleton hv hcode]
  · rfl

/-- The index of an element that is assigned to, behind the code of the value. -/
theorem Tree.fold_constant_index :
    let loc : Loc := ⟨1, 1⟩
    let index : Expr := .binary .mul (.int 2) (.neg (.binary .sub (.int 1) (.int 4)))
    let tree : Tree := ⟨[⟨"main", [], [.assign ⟨⟨"a", [index], loc⟩, .int 7⟩], loc⟩]⟩
    let p : Program := tree.generate
    tree.compile = .ok p ∧ ⟨1, index⟩ ∈ tree.sites ∧ index.constant? = some 6 ∧
      p.segment 1 7 = index.code [] ∧
      p.fold.segment (movedTo p.foldKept 1) (movedTo p.foldKept 7) = [.push "6"] := by
  intro loc index tree p
  have hcompile : tree.compile = .ok p := rfl
  have hsite : (⟨1, index⟩ : Site) ∈ tree.sites := List.mem_cons_of_mem _ (List.mem_cons_self ..)
  have hvalue : index.constant? = some 6 := rfl
  exact ⟨hcompile, hsite, hvalue, Tree.fold_constant hcompile hsite hvalue⟩

end CMinusMinus
