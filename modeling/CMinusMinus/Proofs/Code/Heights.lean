import CMinusMinus.Proofs.Code.Layout
import CMinusMinus.Proofs.Machine.Heights

/-!
# Heights in generated code

Every instruction of generated code stands at a height of the stack that does not depend on how control came
to it. Heights are counted from the level of a call, which is the stack without the arguments of the call. A
function starts with its arguments on the stack, and between two statements there is nothing; so the labels
inside functions stand at the level, and a return finds what a call of the function leaves.
-/

namespace CMinusMinus

/-- How many values a call of a function leaves in the place of its arguments. -/
def Function.left (f : Function) : Nat :=
  if f.yields then 1 else 0

/-- A place is at the level of the call, if control comes to it at all. -/
def Level (a : Option Nat) : Prop :=
  a = none ∨ a = some 0

/-! ## Walks over code -/

section Walks

variable (tree : Tree) (f : Function) (labels : List String)

/-- An instruction of a function is in place at a height; if control may come from it to the next
instruction, then at the height that is given. -/
inductive Suits : Instruction → Nat → Option Nat → Prop where
  | straight {i : Instruction} {taken left h : Nat} (ho : i.opcode.isStraight = true)
      (he : i.effect? = some (taken, left)) (hh : taken ≤ h) : Suits i h (some (h - taken + left))
  | test {label : String} (hl : label ∈ labels) : Suits ⟨.jz, [label]⟩ 1 (some 0)
  | jump {label : String} (hl : label ∈ labels) : Suits ⟨.jmp, [label]⟩ 0 none
  | call {name : String} {g : Function} {h : Nat} (hg : tree.function? name = some g)
      (hh : g.params.length ≤ h) : Suits ⟨.call, [name]⟩ h (some (h - g.params.length + g.left))
  | missing {name : String} {h : Nat} (hi : Text.isIdentifier name = true)
      (hg : tree.function? name = none) : Suits ⟨.call, [name]⟩ h none
  | ret : Suits (.ret f.left) f.left none

/-- From a height in front of lines to one behind them, with the height in front of every instruction; there
is none where control does not come. -/
inductive Walk : Option Nat → List Program.Line → List (Option Nat) → Option Nat → Prop where
  | nil {a : Option Nat} : Walk a [] [] a
  | label {a b : Option Nat} {name : String} {rest : List Program.Line} {hs : List (Option Nat)}
      (ha : Level a) (hw : Walk (some 0) rest hs b) : Walk a (.label name :: rest) hs b
  | step {h : Nat} {a b : Option Nat} {i : Instruction} {rest : List Program.Line}
      {hs : List (Option Nat)} (hi : Suits tree f labels i h a) (hw : Walk a rest hs b) :
      Walk (some h) (.instruction i :: rest) (some h :: hs) b
  | dead {b : Option Nat} {i : Instruction} {rest : List Program.Line} {hs : List (Option Nat)}
      (hw : Walk none rest hs b) : Walk none (.instruction i :: rest) (none :: hs) b

/-- From a height on, or where control does not come, lines can be walked over to a height of some kind. -/
def Continues (h : Nat) (B : Option Nat → Prop) (lines : List Program.Line) : Prop :=
  ∀ a, a = none ∨ a = some h → ∃ hs b, Walk tree f labels a lines hs b ∧ B b

end Walks

/-- How many instructions there are among lines. -/
def instructionCount (lines : List Program.Line) : Nat :=
  lines.countP fun
    | .instruction _ => true
    | .label _ => false

theorem instructionCount_cons (i : Instruction) (xs : List Program.Line) :
    instructionCount (.instruction i :: xs) = instructionCount xs + 1 :=
  List.countP_cons_of_pos rfl

theorem instructionCount_append (xs ys : List Program.Line) :
    instructionCount (xs ++ ys) = instructionCount xs + instructionCount ys :=
  List.countP_append

section Walks

variable {tree : Tree} {f : Function} {labels : List String} {a b c : Option Nat}
  {xs ys : List Program.Line} {hs hs' : List (Option Nat)}

theorem Suits.unique {i : Instruction} {h : Nat} (hi : Suits tree f labels i h a)
    (hi' : Suits tree f labels i h b) : a = b := by
  cases hi <;> cases hi' <;> simp_all [Opcode.isStraight, Instruction.ret]

theorem Walk.length (hw : Walk tree f labels a xs hs b) : hs.length = instructionCount xs := by
  induction hw with
  | nil => rfl
  | label ha hw ih => exact ih
  | step hi hw ih => simp [instructionCount, ih]
  | dead hw ih => simp [instructionCount, ih]

theorem Walk.unique (hw : Walk tree f labels a xs hs b) (hw' : Walk tree f labels a xs hs' c) :
    hs = hs' ∧ b = c := by
  induction hw generalizing hs' with
  | nil =>
    cases hw'
    exact ⟨rfl, rfl⟩
  | label ha hw ih =>
    cases hw' with
    | label ha' hw' => exact ih hw'
  | step hi hw ih =>
    cases hw' with
    | step hi' hw' =>
      obtain rfl := hi.unique hi'
      obtain ⟨rfl, rfl⟩ := ih hw'
      exact ⟨rfl, rfl⟩
  | dead hw ih =>
    cases hw' with
    | dead hw' =>
      obtain ⟨rfl, rfl⟩ := ih hw'
      exact ⟨rfl, rfl⟩

theorem Walk.split (hw : Walk tree f labels a (xs ++ ys) hs c) :
    ∃ before b behind, hs = before ++ behind ∧ Walk tree f labels a xs before b ∧
      Walk tree f labels b ys behind c := by
  induction xs generalizing a hs with
  | nil => exact ⟨[], a, hs, rfl, .nil, hw⟩
  | cons line xs ih =>
    cases hw with
    | label ha hw =>
      obtain ⟨before, b, behind, rfl, hx, hy⟩ := ih hw
      exact ⟨before, b, behind, rfl, .label ha hx, hy⟩
    | step hi hw =>
      obtain ⟨before, b, behind, rfl, hx, hy⟩ := ih hw
      exact ⟨_ :: before, b, behind, rfl, .step hi hx, hy⟩
    | dead hw =>
      obtain ⟨before, b, behind, rfl, hx, hy⟩ := ih hw
      exact ⟨_ :: before, b, behind, rfl, .dead hx, hy⟩

/-- Where lines end so that control does not come behind them, the first instruction has the height in front
of the lines. -/
theorem Walk.head {h : Nat} (hw : Walk tree f labels (some h) xs hs none) : hs[0]? = some (some h) := by
  generalize ha : some h = a at hw
  generalize hb : none = b at hw
  -- Labels may stand in front of the first instruction, and they keep the level.
  induction hw generalizing h with
  | nil =>
    subst ha
    cases hb
  | label hl hw ih =>
    subst ha
    rcases hl with hl | hl
    · cases hl
    · cases hl
      exact ih rfl hb
  | step hi hw ih =>
    cases ha
    rfl
  | dead hw ih => cases ha

/-- The first instruction of lines in front of which is the level stands at the level. -/
theorem Walk.level (ha : Level a) (hw : Walk tree f labels a xs hs b) (hne : 0 < instructionCount xs) :
    ∃ h, hs[0]? = some h ∧ Level h := by
  induction hw with
  | nil => cases hne
  | label hl hw ih => exact ih (.inr rfl) hne
  | step hi hw ih => exact ⟨_, rfl, ha⟩
  | dead hw ih => exact ⟨_, rfl, ha⟩

/-! ## Walks that can be continued -/

variable {h h' : Nat} {B : Option Nat → Prop} {rest : List Program.Line}

theorem Continues.dead (hr : Continues tree f labels h B rest) :
    ∃ hs b, Walk tree f labels none rest hs b ∧ B b :=
  hr none (.inl rfl)

theorem continues_nil (hnone : B none) (hsome : B (some h)) : Continues tree f labels h B [] := by
  rintro a (rfl | rfl)
  · exact ⟨[], none, .nil, hnone⟩
  · exact ⟨[], some h, .nil, hsome⟩

theorem Continues.label {name : String} (hr : Continues tree f labels 0 B rest) :
    Continues tree f labels 0 B (.label name :: rest) := by
  intro a ha
  obtain ⟨hs, b, hw, hb⟩ := hr (some 0) (.inr rfl)
  exact ⟨hs, b, .label ha hw, hb⟩

theorem Continues.step {i : Instruction} (hr : Continues tree f labels h' B rest)
    (hi : Suits tree f labels i h (some h')) : Continues tree f labels h B (.instruction i :: rest) := by
  rintro a (rfl | rfl)
  · obtain ⟨hs, b, hw, hb⟩ := hr.dead
    exact ⟨_, b, .dead hw, hb⟩
  · obtain ⟨hs, b, hw, hb⟩ := hr (some h') (.inr rfl)
    exact ⟨_, b, .step hi hw, hb⟩

theorem continues_stop {i : Instruction} (hr : ∃ hs b, Walk tree f labels none rest hs b ∧ B b)
    (hi : Suits tree f labels i h none) : Continues tree f labels h B (.instruction i :: rest) := by
  obtain ⟨hs, b, hw, hb⟩ := hr
  rintro a (rfl | rfl)
  · exact ⟨_, b, .dead hw, hb⟩
  · exact ⟨_, b, .step hi hw, hb⟩

theorem Continues.straight {i : Instruction} {taken left : Nat} (hr : Continues tree f labels h' B rest)
    (ho : i.opcode.isStraight = true) (he : i.effect? = some (taken, left)) (hh : taken ≤ h)
    (hh' : h - taken + left = h') : Continues tree f labels h B (.instruction i :: rest) := by
  subst hh'
  exact hr.step (.straight ho he hh)

end Walks

/-! ## Expressions -/

section Expressions

variable {tree : Tree} {f : Function} {labels : List String} {B : Option Nat → Prop}
  {rest : List Program.Line}

/-- A call takes its arguments and leaves what the function leaves; behind a call of a function that is not
declared there is any height, since control does not come there. -/
theorem continues_call {name : String} {count h h' : Nat}
    (hname : Text.isIdentifier name = true)
    (hleft : ∀ g, tree.function? name = some g → g.params.length = count ∧ h' = h + g.left)
    (hr : Continues tree f labels h' B rest) :
    Continues tree f labels (h + count) B (.instruction ⟨.call, [name]⟩ :: rest) := by
  cases hg : tree.function? name with
  | none => exact continues_stop hr.dead (.missing hname hg)
  | some g =>
    obtain ⟨hcount, rfl⟩ := hleft g hg
    have hcall : Suits tree f labels ⟨.call, [name]⟩ (h + count)
        (some (h + count - g.params.length + g.left)) := .call hg (by omega)
    rw [hcount, Nat.add_sub_cancel] at hcall
    exact hr.step hcall

mutual

/-- The code of an expression leaves one value. -/
theorem Expr.continues {e : Expr} (he : e.all (Expr.fits tree) = true) {h : Nat}
    {code : List Instruction}
    (hr : Continues tree f labels (h + 1) B (instructionLines code rest)) :
    Continues tree f labels h B (instructionLines (e.code code) rest) := by
  match e with
  | .int value =>
    simp only [Expr.code]
    exact hr.straight rfl rfl (Nat.zero_le h) rfl
  | .place name [] loc =>
    simp only [Expr.code]
    exact hr.straight rfl rfl (Nat.zero_le h) rfl
  | .place name (index :: more) loc =>
    simp only [Expr.all, Expr.allOf, Bool.and_eq_true] at he
    simp only [Expr.code]
    refine Expr.continues he.2.1 ?_
    exact hr.straight rfl rfl (Nat.le_add_left 1 h) rfl
  | .call name args loc =>
    simp only [Expr.all, Bool.and_eq_true, Expr.fits, Expr.isNamed] at he
    obtain ⟨⟨hname, hmeasured, hregular⟩, hargs⟩ := he
    simp only [Expr.code]
    by_cases hlen : name = lengthName
    · -- The length of an array is no call.
      obtain ⟨array, indices, loc', rfl⟩ :=
        isVariable_iff (by simpa [Expr.isMeasured, hlen] using hmeasured)
      simp only [if_pos hlen]
      exact hr.straight rfl rfl (Nat.zero_le h) rfl
    · simp only [if_neg hlen]
      refine Expr.continues_args hargs (continues_call hname (fun g hg => ?_) hr)
      have hsuits : g.params.length = args.length ∧ g.yields = true := by
        simpa [Expr.isRegular, Tree.suits, hlen, hg] using hregular
      simp only [Function.left, hsuits.2, if_true]
      exact ⟨hsuits.1, trivial⟩
  | .neg operand =>
    simp only [Expr.all, Bool.and_eq_true] at he
    simp only [Expr.code]
    refine Expr.continues he.2 ?_
    exact hr.straight rfl rfl (Nat.le_add_left 1 h) rfl
  | .binary op lhs rhs =>
    simp only [Expr.all, Bool.and_eq_true] at he
    simp only [Expr.code]
    refine Expr.continues he.2.1 (Expr.continues he.2.2 ?_)
    exact hr.straight rfl rfl (Nat.le_add_left 2 h) rfl

/-- The code of arguments leaves as many values as there are. -/
theorem Expr.continues_args {args : List Expr} (ha : Expr.allOf (Expr.fits tree) args = true) {h : Nat}
    {code : List Instruction}
    (hr : Continues tree f labels (h + args.length) B (instructionLines code rest)) :
    Continues tree f labels h B (instructionLines (Expr.argsCode args code) rest) := by
  match args with
  | [] =>
    simp only [Expr.argsCode]
    exact hr
  | arg :: args =>
    simp only [Expr.allOf, Bool.and_eq_true] at ha
    simp only [Expr.argsCode]
    exact Expr.continues_args ha.2 (Expr.continues ha.1 hr)

end

variable {h : Nat}

theorem Assign.continues {a : Assign} (ha : a.all (Expr.fits tree) = true) {code : List Instruction}
    (hr : Continues tree f labels h B (instructionLines code rest)) :
    Continues tree f labels h B (instructionLines (a.code code) rest) := by
  obtain ⟨⟨name, indices, loc⟩, value⟩ := a
  simp only [Assign.all, Bool.and_eq_true] at ha
  refine Expr.continues ha.1 ?_
  cases indices with
  | nil => exact hr.straight rfl rfl (Nat.le_add_left 1 h) rfl
  | cons index more =>
    simp only [Expr.allOf, Bool.and_eq_true] at ha
    refine Expr.continues ha.2.1 ?_
    exact hr.straight rfl rfl (Nat.le_add_left 2 h) rfl

/-- A call that stands as a statement leaves nothing. -/
theorem Call.continues {c : Call} (hc : c.fits tree = true)
    (ha : Expr.allOf (Expr.fits tree) c.args = true) (hr : Continues tree f labels h B rest) :
    Continues tree f labels h B
      (instructionLines (c.code (if tree.yields.leavesValue c.name then [.drop] else [])) rest) := by
  obtain ⟨name, args, loc⟩ := c
  simp only [Call.fits, Bool.and_eq_true, Call.isNamed] at hc
  obtain ⟨hname, hmeasured, hregular⟩ := hc
  have hdrop : Continues tree f labels (h + 1) B (instructionLines [.drop] rest) :=
    hr.straight rfl rfl (Nat.le_add_left 1 h) rfl
  simp only [Call.code, Expr.code, Yields.leavesValue]
  by_cases hlen : name = lengthName
  · obtain ⟨array, indices, loc', rfl⟩ :=
      isVariable_iff (by simpa [Call.isMeasured, Expr.isMeasured, hlen] using hmeasured)
    simp only [hlen, decide_true, Bool.true_or, if_true]
    exact hdrop.straight rfl rfl (Nat.zero_le h) rfl
  · simp only [hlen, decide_false, Bool.false_or, if_false]
    have hsuits : ∀ g, tree.function? name = some g → g.params.length = args.length := by
      intro g hg
      simpa [Call.isRegular, Tree.suits, hlen, hg] using hregular
    refine Expr.continues_args ha ?_
    -- What the generator knows of the function decides on the drop, and the tree on what the call leaves.
    rw [lookup_yields]
    cases hg : tree.function? name with
    | none => exact continues_stop hr.dead (.missing hname hg)
    | some g =>
      simp only [Option.map_some, Option.getD_some]
      have hbehind : Continues tree f labels (h + g.left) B
          (instructionLines (if g.yields then [.drop] else []) rest) := by
        by_cases hy : g.yields = true
        · simp only [Function.left, if_pos hy]
          exact hdrop
        · simp only [Function.left, if_neg hy]
          exact hr
      refine continues_call hname (fun g' hg' => ?_) hbehind
      obtain rfl : g = g' := Option.some.inj (hg.symm.trans hg')
      exact ⟨hsuits g hg, rfl⟩

end Expressions

/-! ## Statements -/

section Statements

variable {tree : Tree} {f : Function} {labels : List String} {B : Option Nat → Prop}
  {rest : List Program.Line}

theorem Expr.continues_test {condition : Expr} (hc : condition.all (Expr.fits tree) = true)
    {label : String} (hl : label ∈ labels) (hr : Continues tree f labels 0 B rest) :
    Continues tree f labels 0 B (instructionLines (condition.code [⟨.jz, [label]⟩]) rest) :=
  Expr.continues hc (hr.step (.test hl))

theorem Expr.continues_ret {value : Expr} (hv : value.all (Expr.fits tree) = true)
    (hy : f.yields = true) (hr : ∃ hs b, Walk tree f labels none rest hs b ∧ B b) :
    Continues tree f labels 0 B (instructionLines (value.code [.ret 1]) rest) := by
  have hleft : f.left = 1 := if_pos hy
  have hret : Suits tree f labels (.ret 1) 1 none := hleft ▸ Suits.ret
  exact Expr.continues hv (continues_stop hr hret)

theorem continues_jump {label : String} (hl : label ∈ labels) (hr : Continues tree f labels 0 B rest) :
    Continues tree f labels 0 B (.instruction ⟨.jmp, [label]⟩ :: rest) :=
  continues_stop hr.dead (.jump hl)

theorem continues_loopLines {next bodyNext : Nat} {condition : Expr} {body : List Stmt}
    {step : List Instruction} (hc : condition.all (Expr.fits tree) = true)
    (hbody : ∀ rest, Continues tree f labels 0 B rest →
      Continues tree f labels 0 B (Stmt.allLines tree.yields bodyNext body rest))
    (hstep : ∀ rest, Continues tree f labels 0 B rest →
      Continues tree f labels 0 B (instructionLines step rest))
    (hstart : generatedLabel next ∈ labels) (hstop : generatedLabel (next + 1) ∈ labels)
    (hr : Continues tree f labels 0 B rest) : Continues tree f labels 0 B
      (loopLines next condition (Stmt.allLines tree.yields bodyNext body) step rest) := by
  refine (Expr.continues_test hc hstop (hbody _ ?_)).label
  rw [instructionLines_append_code]
  exact hstep _ (continues_jump hstart hr.label)

/-- The labels of a conditional with an else block are its own two and those of the block. -/
theorem labelNames_elseLines (otherwise next : Nat) (body : List Stmt) :
    labelNames (Stmt.elseLines tree.yields otherwise next (some body)
      [.label (generatedLabel (otherwise + 1))]) = generatedLabel otherwise ::
        (labelNames (Stmt.allLines tree.yields next body []) ++ [generatedLabel (otherwise + 1)]) := by
  show generatedLabel otherwise :: labelNames (Stmt.allLines _ next body _) = _
  rw [labelNames_allLines]
  rfl

mutual

/-- The code of a statement leads from the level to the level. -/
theorem Stmt.continues {stmt : Stmt} (hf : stmt.all (Expr.fits tree) (Call.fits tree) = true)
    (hy : stmt.hasReturn = true → f.yields = true) {next : Nat}
    (hl : ∀ name ∈ labelNames (stmt.lines tree.yields next []), name ∈ labels)
    {rest : List Program.Line} (hr : Continues tree f labels 0 B rest) :
    Continues tree f labels 0 B (stmt.lines tree.yields next rest) := by
  match stmt with
  | .print value =>
    simp only [Stmt.all, Stmt.lines] at hf ⊢
    exact Expr.continues hf (hr.straight rfl rfl (Nat.le_refl 1) rfl)
  | .ret value =>
    simp only [Stmt.all, Stmt.lines] at hf ⊢
    exact Expr.continues_ret hf (hy rfl) hr.dead
  | .assign a =>
    simp only [Stmt.all, Stmt.lines] at hf ⊢
    exact Assign.continues hf hr
  | .array name size =>
    simp only [Stmt.all, Stmt.lines] at hf ⊢
    exact Expr.continues hf (hr.straight rfl rfl (Nat.le_refl 1) rfl)
  | .call c =>
    simp only [Stmt.all, Bool.and_eq_true, Stmt.lines] at hf ⊢
    exact Call.continues hf.1 hf.2 hr
  | .whileLoop condition body =>
    simp only [Stmt.all, Bool.and_eq_true, Stmt.hasReturn, Stmt.lines] at hf hy hl ⊢
    rw [labelNames_loopLines] at hl
    refine continues_loopLines hf.1 (fun rest hr => ?_) (fun rest hr => hr) (hl _ (by simp))
      (hl _ (by simp)) hr
    exact Stmt.continues_all hf.2 hy (fun name hm => hl name (by simp [hm])) hr
  | .forLoop init condition step body =>
    simp only [Stmt.all, Bool.and_eq_true, Stmt.hasReturn, Stmt.lines] at hf hy hl ⊢
    rw [labelNames_instructionLines, labelNames_loopLines] at hl
    refine Assign.continues hf.1 ?_
    refine continues_loopLines hf.2.1 (fun rest hr => ?_) (fun rest hr => Assign.continues hf.2.2.1 hr)
      (hl _ (by simp)) (hl _ (by simp)) hr
    exact Stmt.continues_all hf.2.2.2 hy (fun name hm => hl name (by simp [hm])) hr
  | .branch condition yes no =>
    simp only [Stmt.all, Bool.and_eq_true, Stmt.hasReturn, Bool.or_eq_true, Stmt.lines] at hf hy hl ⊢
    rw [labelNames_instructionLines, labelNames_allLines] at hl
    have hotherwise : generatedLabel next ∈ labels := by
      obtain ⟨names, -, hnames⟩ :=
        Stmt.numbered_elseLines tree.yields next (next + 2 + Stmt.labelCounts yes) no
      exact hl _ (by simp [hnames])
    refine Expr.continues_test hf.1 hotherwise ?_
    refine Stmt.continues_all hf.2.1 (fun hn => hy (.inl hn)) (fun name hm => hl name (by simp [hm])) ?_
    exact Stmt.continues_else hf.2.2 (fun hn => hy (.inr hn)) (fun name hm => hl name (by simp [hm])) hr
  | .block body =>
    simp only [Stmt.all, Stmt.hasReturn, Stmt.lines] at hf hy hl ⊢
    exact Stmt.continues_all hf hy hl hr

theorem Stmt.continues_all {body : List Stmt}
    (hf : Stmt.allOf (Expr.fits tree) (Call.fits tree) body = true)
    (hy : Stmt.anyReturn body = true → f.yields = true) {next : Nat}
    (hl : ∀ name ∈ labelNames (Stmt.allLines tree.yields next body []), name ∈ labels)
    {rest : List Program.Line} (hr : Continues tree f labels 0 B rest) :
    Continues tree f labels 0 B (Stmt.allLines tree.yields next body rest) := by
  match body with
  | [] =>
    simp only [Stmt.allLines]
    exact hr
  | stmt :: body =>
    simp only [Stmt.allOf, Bool.and_eq_true, Stmt.anyReturn, Bool.or_eq_true, Stmt.allLines] at hf hy hl ⊢
    rw [labelNames_lines] at hl
    refine Stmt.continues hf.1 (fun hn => hy (.inl hn)) (fun name hm => hl name (by simp [hm])) ?_
    exact Stmt.continues_all hf.2 (fun hn => hy (.inr hn)) (fun name hm => hl name (by simp [hm])) hr

/-- From behind the first block of a conditional to behind the conditional. -/
theorem Stmt.continues_else {no : Option (List Stmt)}
    (hf : Stmt.allOption (Expr.fits tree) (Call.fits tree) no = true)
    (hy : Stmt.anyReturnOption no = true → f.yields = true) {otherwise next : Nat}
    (hl : ∀ name ∈ labelNames (Stmt.elseLines tree.yields otherwise next no
      [.label (generatedLabel (otherwise + 1))]), name ∈ labels)
    {rest : List Program.Line} (hr : Continues tree f labels 0 B rest) :
    Continues tree f labels 0 B (Stmt.elseLines tree.yields otherwise next no
      (.label (generatedLabel (otherwise + 1)) :: rest)) := by
  match no with
  | none =>
    simp only [Stmt.elseLines]
    exact hr.label.label
  | some body =>
    simp only [Stmt.allOption, Stmt.anyReturnOption] at hf hy
    rw [labelNames_elseLines] at hl
    simp only [Stmt.elseLines]
    refine continues_jump (hl _ (by simp)) (Continues.label ?_)
    exact Stmt.continues_all hf hy (fun name hm => hl name (by simp [hm])) hr.label

end

/-- Control does not come behind a body that ends with a `return`. -/
theorem Stmt.continues_endsWithReturn {body : Block} (he : body.endsWithReturn = true)
    (hf : Stmt.allOf (Expr.fits tree) (Call.fits tree) body = true)
    (hy : Stmt.anyReturn body = true → f.yields = true) {next : Nat}
    (hl : ∀ name ∈ labelNames (Stmt.allLines tree.yields next body []), name ∈ labels)
    (hr : ∃ hs b, Walk tree f labels none rest hs b ∧ B b) :
    Continues tree f labels 0 B (Stmt.allLines tree.yields next body rest) := by
  induction body, he using Block.endsWithReturn_induction generalizing next with
  | last value =>
    simp only [Stmt.allOf, Stmt.all, Bool.and_eq_true, Stmt.allLines, Stmt.lines] at hf ⊢
    exact Expr.continues_ret hf.1 (hy rfl) hr
  | step stmt body he ih =>
    simp only [Stmt.allOf, Bool.and_eq_true, Stmt.anyReturn, Bool.or_eq_true, Stmt.allLines] at hf hy hl ⊢
    rw [labelNames_lines] at hl
    refine Stmt.continues hf.1 (fun hn => hy (.inl hn)) (fun name hm => hl name (by simp [hm])) ?_
    exact ih hf.2 (fun hn => hy (.inr hn)) fun name hm => hl name (by simp [hm])

end Statements

/-! ## Functions -/

/-- The lines of a function behind its name, in front of `rest`. -/
def Function.bodyLines (yields : Yields) (next : Nat) (f : Function) (rest : List Program.Line) :
    List Program.Line :=
  instructionLines (f.params.map .bind) <| Stmt.allLines yields next f.body <|
    instructionLines f.epilogue rest

/-- The labels inside a function. -/
def Function.labels (yields : Yields) (next : Nat) (f : Function) : List String :=
  labelNames (Stmt.allLines yields next f.body [])

section Functions

variable {tree : Tree} {f : Function} {labels : List String} {B : Option Nat → Prop}
  {rest : List Program.Line}

/-- The parameters take the arguments from the stack. -/
theorem continues_params {params : List String} (hr : Continues tree f labels 0 B rest) :
    Continues tree f labels params.length B (instructionLines (params.map .bind) rest) := by
  induction params with
  | nil => exact hr
  | cons name params ih => exact ih.straight rfl rfl (Nat.le_add_left 1 params.length) rfl

/-- Control does not come behind a function. -/
theorem Function.exists_walk (hf : Stmt.allOf (Expr.fits tree) (Call.fits tree) f.body = true)
    (next : Nat) : ∃ hs, Walk tree f (f.labels tree.yields next) (some f.params.length)
      (f.bodyLines tree.yields next []) hs none := by
  have hend : Continues tree f (f.labels tree.yields next) 0 (· = none)
      (Stmt.allLines tree.yields next f.body (instructionLines f.epilogue [])) := by
    have hnil : ∃ hs b, Walk tree f (f.labels tree.yields next) none [] hs b ∧ b = none :=
      ⟨[], none, .nil, rfl⟩
    have hret : Continues tree f (f.labels tree.yields next) f.left (· = none)
        [.instruction (.ret f.left)] := continues_stop hnil .ret
    -- The last statement returns, or the epilogue does.
    unfold Function.epilogue
    by_cases he : f.body.endsWithReturn = true
    · rw [if_pos he]
      exact Stmt.continues_endsWithReturn he hf id (fun name hm => hm) hnil
    · rw [if_neg he]
      refine Stmt.continues_all hf id (fun name hm => hm) ?_
      by_cases hy : f.yields = true
      · have hleft : f.left = 1 := if_pos hy
        rw [if_pos hy]
        rw [hleft] at hret
        exact hret.straight rfl rfl (Nat.le_refl 0) rfl
      · have hleft : f.left = 0 := if_neg hy
        rw [if_neg hy]
        rw [hleft] at hret
        exact hret
  obtain ⟨hs, b, hw, rfl⟩ := continues_params hend (some f.params.length) (.inr rfl)
  exact ⟨hs, hw⟩

end Functions

end CMinusMinus
