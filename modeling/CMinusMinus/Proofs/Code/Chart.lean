import CMinusMinus.Proofs.Code.Heights

/-!
# Charts of generated code

A chart tells for each instruction of a program which function it belongs to and at which height it stands.
A generated program has a chart: functions stand one behind the other, control goes on from an instruction to
places of the same function with the heights that they have in the chart, and the first instruction of every
statement is at the level.
-/

namespace CMinusMinus

/-! ## Places in a program -/

theorem instructionCount_instructionLines (code : List Instruction) (rest : List Program.Line) :
    instructionCount (instructionLines code rest) = code.length + instructionCount rest := by
  induction code with
  | nil => simp [instructionLines]
  | cons i code ih =>
    show instructionCount (.instruction i :: instructionLines code rest) = _
    rw [instructionCount_cons, ih, List.length_cons, Nat.add_right_comm]

theorem Program.Located.append {p : Program} {k : Nat} {xs ys : List Program.Line}
    (h : p.Located k (xs ++ ys)) : p.Located k xs ∧ p.Located (k + instructionCount xs) ys := by
  induction xs generalizing k with
  | nil => exact ⟨trivial, h⟩
  | cons line xs ih =>
    cases line with
    | label name =>
      obtain ⟨hx, hy⟩ := ih h.2
      exact ⟨⟨h.1, hx⟩, hy⟩
    | instruction i =>
      obtain ⟨hx, hy⟩ := ih h.2
      refine ⟨⟨h.1, hx⟩, ?_⟩
      rwa [instructionCount_cons, Nat.add_comm _ 1, ← Nat.add_assoc]

section Places

variable {tree : Tree} {f : Function} {labels : List String} {p : Program} {a : Option Nat}
  {lines : List Program.Line} {hs : List (Option Nat)}

/-- Control goes on from an instruction to the height behind it. -/
theorem Walk.located_step (hw : Walk tree f labels a lines hs none) {k j h : Nat}
    (hl : p.Located k lines) (hj : hs[j]? = some (some h)) :
    ∃ i b, p.instructions[k + j]? = some i ∧ Suits tree f labels i h b ∧
      ∀ h', b = some h' → hs[j + 1]? = some (some h') := by
  generalize hb : none = b at hw
  induction hw generalizing k j with
  | nil => cases hj
  | label ha hw ih => exact ih hl.2 hj hb
  | step hi hw ih =>
    subst hb
    cases j with
    | zero =>
      cases hj
      refine ⟨_, _, hl.1, hi, ?_⟩
      rintro h' rfl
      exact hw.head
    | succ j =>
      obtain ⟨i, b, hget, hrest⟩ := ih hl.2 hj rfl
      exact ⟨i, b, by rwa [Nat.add_right_comm] at hget, hrest⟩
  | dead hw ih =>
    subst hb
    cases j with
    | zero => cases hj
    | succ j =>
      obtain ⟨i, b, hget, hrest⟩ := ih hl.2 hj rfl
      exact ⟨i, b, by rwa [Nat.add_right_comm] at hget, hrest⟩

theorem Walk.located_label (hw : Walk tree f labels a lines hs none) {k : Nat} {name : String}
    (hl : p.Located k lines) (hm : name ∈ labelNames lines) :
    ∃ j, p.labels.get? name = some (k + j) ∧ hs[j]? = some (some 0) := by
  generalize hb : none = b at hw
  induction hw generalizing k with
  | nil => cases hm
  | label ha hw ih =>
    subst hb
    rcases List.mem_cons.1 hm with rfl | hm
    · exact ⟨0, hl.1, hw.head⟩
    · exact ih hl.2 hm rfl
  | step hi hw ih =>
    obtain ⟨j, hget, hj⟩ := ih hl.2 hm hb
    exact ⟨j + 1, by rw [hget, Nat.add_right_comm, Nat.add_assoc], hj⟩
  | dead hw ih =>
    obtain ⟨j, hget, hj⟩ := ih hl.2 hm hb
    exact ⟨j + 1, by rw [hget, Nat.add_right_comm, Nat.add_assoc], hj⟩

end Places

/-! ## Starts of statements -/

/-- A statement and the position of its first instruction. -/
structure Start where
  position : Nat
  stmt : Stmt

section Starts

variable (yields : Yields)

mutual

/-- The starts of a statement, whose code stands at `k` and has labels from `next` on, and of the statements
in it. A block has no instructions but those of its statements. -/
def Stmt.starts (next k : Nat) (stmt : Stmt) : List Start :=
  match stmt with
  | .print _ | .ret _ | .assign _ | .array _ _ | .call _ => [⟨k, stmt⟩]
  | .whileLoop condition body =>
    let test := condition.code [⟨.jz, [generatedLabel (next + 1)]⟩]
    ⟨k, stmt⟩ :: Stmt.allStarts (next + 2) (k + test.length) body
  | .forLoop init condition _ body =>
    let test := condition.code [⟨.jz, [generatedLabel (next + 1)]⟩]
    ⟨k, stmt⟩ :: Stmt.allStarts (next + 2) (k + ((init.code []).length + test.length)) body
  | .branch condition yes no =>
    let test := condition.code [⟨.jz, [generatedLabel next]⟩]
    let behind := k + (test.length + instructionCount (Stmt.allLines yields (next + 2) yes []))
    ⟨k, stmt⟩ :: (Stmt.allStarts (next + 2) (k + test.length) yes ++
      Stmt.elseStarts (next + 2 + Stmt.labelCounts yes) behind no)
  | .block body => Stmt.allStarts next k body

def Stmt.allStarts (next k : Nat) (body : List Stmt) : List Start :=
  match body with
  | [] => []
  | stmt :: body => stmt.starts next k ++
    Stmt.allStarts (next + stmt.labelCount) (k + instructionCount (stmt.lines yields next [])) body

/-- The starts in an else block, which is jumped over from `k`. -/
def Stmt.elseStarts (next k : Nat) (no : Option (List Stmt)) : List Start :=
  match no with
  | none => []
  | some body => Stmt.allStarts next (k + 1) body

end

/-- The starts in the bodies of functions, the first of which stands at `k`, with the functions. -/
def functionStarts (next k : Nat) : List Function → List (Function × Start)
  | [] => []
  | f :: rest => (Stmt.allStarts yields next (k + f.params.length) f.body).map (f, ·) ++
    functionStarts (next + Stmt.labelCounts f.body)
      (k + instructionCount (f.bodyLines yields next [])) rest

end Starts

/-- Every statement of a tree that has instructions, with its function and the position of the first one. -/
def Tree.starts (tree : Tree) : List (Function × Start) :=
  functionStarts tree.yields 0 0 tree.functions

mutual

/-- The statements in a statement, but for blocks, in the order of the text. -/
def Stmt.parts (stmt : Stmt) : List Stmt :=
  match stmt with
  | .print _ | .ret _ | .assign _ | .array _ _ | .call _ => [stmt]
  | .whileLoop _ body | .forLoop _ _ _ body => stmt :: Stmt.partsOf body
  | .branch _ yes no => stmt :: (Stmt.partsOf yes ++ Stmt.partsOption no)
  | .block body => Stmt.partsOf body

def Stmt.partsOf (body : List Stmt) : List Stmt :=
  match body with
  | [] => []
  | stmt :: body => stmt.parts ++ Stmt.partsOf body

def Stmt.partsOption (no : Option (List Stmt)) : List Stmt :=
  match no with
  | none => []
  | some body => Stmt.partsOf body

end

section Parts

variable (yields : Yields)

mutual

theorem Stmt.map_starts (next k : Nat) (stmt : Stmt) :
    (stmt.starts yields next k).map Start.stmt = stmt.parts := by
  match stmt with
  | .print _ | .ret _ | .assign _ | .array _ _ | .call _ => rfl
  | .whileLoop condition body =>
    simp only [Stmt.starts, Stmt.parts, List.map_cons, Stmt.map_allStarts]
  | .forLoop init condition step body =>
    simp only [Stmt.starts, Stmt.parts, List.map_cons, Stmt.map_allStarts]
  | .branch condition yes no =>
    simp only [Stmt.starts, Stmt.parts, List.map_cons, List.map_append, Stmt.map_allStarts,
      Stmt.map_elseStarts]
  | .block body => simp only [Stmt.starts, Stmt.parts, Stmt.map_allStarts]

theorem Stmt.map_allStarts (next k : Nat) (body : List Stmt) :
    (Stmt.allStarts yields next k body).map Start.stmt = Stmt.partsOf body := by
  match body with
  | [] => rfl
  | stmt :: body =>
    simp only [Stmt.allStarts, Stmt.partsOf, List.map_append, Stmt.map_starts, Stmt.map_allStarts]

theorem Stmt.map_elseStarts (next k : Nat) (no : Option (List Stmt)) :
    (Stmt.elseStarts yields next k no).map Start.stmt = Stmt.partsOption no := by
  match no with
  | none => rfl
  | some body => simp only [Stmt.elseStarts, Stmt.partsOption, Stmt.map_allStarts]

end

theorem map_functionStarts (next k : Nat) (functions : List Function) :
    (functionStarts yields next k functions).map (fun entry => (entry.1, entry.2.stmt)) =
      functions.flatMap fun f => (Stmt.partsOf f.body).map (f, ·) := by
  induction functions generalizing next k with
  | nil => rfl
  | cons f functions ih =>
    rw [functionStarts, List.map_append, ih, List.flatMap_cons, List.map_map,
      ← Stmt.map_allStarts yields next (k + f.params.length), List.map_map]
    rfl

end Parts

/-- No statement but a block is left out. -/
theorem Tree.map_starts (tree : Tree) : tree.starts.map (fun entry => (entry.1, entry.2.stmt)) =
    tree.functions.flatMap fun f => (Stmt.partsOf f.body).map (f, ·) :=
  map_functionStarts tree.yields 0 0 tree.functions

/-! ## Statements have instructions -/

/-- The code of an expression ends with what it stands in front of. -/
theorem Expr.suffix_code (e : Expr) (rest : List Instruction) : rest <:+ e.code rest :=
  ⟨e.code [], (e.code_eq rest).symm⟩

theorem Expr.suffix_argsCode (args : List Expr) (rest : List Instruction) :
    rest <:+ Expr.argsCode args rest :=
  ⟨Expr.argsCode args [], (Expr.argsCode_eq args rest).symm⟩

theorem Expr.code_ne_nil (e : Expr) {code : List Instruction} (hc : code ≠ []) : e.code code ≠ [] :=
  fun h => hc (List.suffix_nil.1 (h ▸ e.suffix_code code))

theorem Expr.argsCode_ne_nil (args : List Expr) {code : List Instruction} (hc : code ≠ []) :
    Expr.argsCode args code ≠ [] :=
  fun h => hc (List.suffix_nil.1 (h ▸ Expr.suffix_argsCode args code))

theorem Assign.code_ne_nil (a : Assign) (code : List Instruction) : a.code code ≠ [] := by
  obtain ⟨⟨name, indices, loc⟩, value⟩ := a
  cases indices with
  | nil => exact value.code_ne_nil (by simp)
  | cons index more => exact value.code_ne_nil (index.code_ne_nil (by simp))

theorem instructionCount_pos {code : List Instruction} (hc : code ≠ []) (rest : List Program.Line) :
    0 < instructionCount (instructionLines code rest) := by
  rw [instructionCount_instructionLines]
  exact Nat.add_pos_left (List.length_pos_iff.2 hc) _

theorem Stmt.instructionCount_pos {stmt : Stmt} (hb : ∀ body, stmt ≠ .block body) (yields : Yields)
    (next : Nat) (rest : List Program.Line) : 0 < instructionCount (stmt.lines yields next rest) := by
  cases stmt with
  | block body => exact absurd rfl (hb body)
  | call c =>
    refine CMinusMinus.instructionCount_pos ?_ rest
    simp only [Call.code, Expr.code]
    split
    · rename_i hlen
      simp only [Yields.leavesValue, hlen, decide_true, Bool.true_or, if_true]
      unfold lengthCode
      split <;> simp
    · exact Expr.argsCode_ne_nil c.args (by simp)
  | assign a => exact CMinusMinus.instructionCount_pos (a.code_ne_nil _) _
  | forLoop init condition step body => exact CMinusMinus.instructionCount_pos (init.code_ne_nil _) _
  | print value | ret value | array name value | branch value yes no | whileLoop value body =>
    exact CMinusMinus.instructionCount_pos (value.code_ne_nil (by simp)) _

/-! ## Statements start at the level -/

theorem lines_eq (yields : Yields) (next : Nat) (stmt : Stmt) (rest : List Program.Line) :
    stmt.lines yields next rest = stmt.lines yields next [] ++ rest := by
  rw [← Stmt.lines_append, List.nil_append]

theorem allLines_eq (yields : Yields) (next : Nat) (body : List Stmt) (rest : List Program.Line) :
    Stmt.allLines yields next body rest = Stmt.allLines yields next body [] ++ rest := by
  rw [← Stmt.allLines_append, List.nil_append]

section Levels

variable (tree : Tree) (f : Function) (labels : List String)

/-- Among lines at `k` the code of a statement starts at the position that is given, behind lines that lead
from a height to the level. -/
structure Begins (h k : Nat) (lines : List Program.Line) (start : Start) : Prop where
  place : ∃ before next behind, lines = before ++ start.stmt.lines tree.yields next behind ∧
    start.position = k + instructionCount before ∧
    0 < instructionCount (start.stmt.lines tree.yields next behind) ∧
    Continues tree f labels h Level before

end Levels

section Levels

variable {tree : Tree} {f : Function} {labels : List String} {k : Nat} {start : Start}

theorem begins_here {stmt : Stmt} (hb : ∀ body, stmt ≠ .block body) (next : Nat)
    (rest : List Program.Line) :
    Begins tree f labels 0 k (stmt.lines tree.yields next rest) ⟨k, stmt⟩ :=
  ⟨[], next, rest, rfl, rfl, stmt.instructionCount_pos hb _ next rest,
    continues_nil (.inl rfl) (.inr rfl)⟩

theorem Begins.behind {h : Nat} {rest : List Program.Line} (xs : List Program.Line)
    (hb : Begins tree f labels 0 (k + instructionCount xs) rest start)
    (hx : ∀ before, Continues tree f labels 0 Level before →
      Continues tree f labels h Level (xs ++ before)) :
    Begins tree f labels h k (xs ++ rest) start := by
  obtain ⟨before, next, behind, rfl, hposition, hpos, hc⟩ := hb
  refine ⟨xs ++ before, next, behind, (List.append_assoc ..).symm, ?_, hpos, hx before hc⟩
  rw [hposition, instructionCount_append, Nat.add_assoc]

theorem Begins.code {h : Nat} {rest : List Program.Line} (code : List Instruction)
    (hb : Begins tree f labels 0 (k + code.length) rest start)
    (hx : ∀ before, Continues tree f labels 0 Level before →
      Continues tree f labels h Level (instructionLines code before)) :
    Begins tree f labels h k (instructionLines code rest) start := by
  refine Begins.behind (code.map .instruction) ?_ hx
  have hcount := instructionCount_instructionLines code []
  simp only [instructionLines, List.append_nil] at hcount
  rw [hcount]
  exact hb

theorem Begins.label {name : String} {rest : List Program.Line}
    (hb : Begins tree f labels 0 k rest start) :
    Begins tree f labels 0 k (.label name :: rest) start :=
  Begins.behind [.label name] hb fun _ hc => hc.label

mutual

/-- Where the code of a statement stands, the statements in it start at the level. -/
theorem Stmt.begins {stmt : Stmt} (hf : stmt.all (Expr.fits tree) (Call.fits tree) = true)
    (hy : stmt.hasReturn = true → f.yields = true) {next k : Nat}
    (hl : ∀ name ∈ labelNames (stmt.lines tree.yields next []), name ∈ labels)
    (hs : start ∈ stmt.starts tree.yields next k) (rest : List Program.Line) :
    Begins tree f labels 0 k (stmt.lines tree.yields next rest) start := by
  match stmt with
  | .print _ | .ret _ | .assign _ | .array _ _ | .call _ =>
    simp only [Stmt.starts, List.mem_singleton] at hs
    subst hs
    exact begins_here (by simp) next rest
  | .whileLoop condition body =>
    simp only [Stmt.starts, List.mem_cons] at hs
    rcases hs with rfl | hs
    · exact begins_here (by simp) next rest
    · -- The body stands behind the label and the test.
      simp only [Stmt.all, Bool.and_eq_true, Stmt.hasReturn, Stmt.lines] at hf hy hl ⊢
      rw [labelNames_loopLines] at hl
      refine Begins.label (Begins.code _ ?_ fun before hc => ?_)
      · exact Stmt.begins_all hf.2 hy (fun name hm => hl name (by simp [hm])) hs _
      · exact Expr.continues_test hf.1 (hl _ (by simp)) hc
  | .forLoop init condition step body =>
    simp only [Stmt.starts, List.mem_cons] at hs
    rcases hs with rfl | hs
    · exact begins_here (by simp) next rest
    · simp only [Stmt.all, Bool.and_eq_true, Stmt.hasReturn, Stmt.lines] at hf hy hl ⊢
      rw [labelNames_instructionLines, labelNames_loopLines] at hl
      rw [← Nat.add_assoc] at hs
      refine Begins.code _ (Begins.label (Begins.code _ ?_ fun before hc => ?_)) fun before hc => ?_
      · exact Stmt.begins_all hf.2.2.2 hy (fun name hm => hl name (by simp [hm])) hs _
      · exact Expr.continues_test hf.2.1 (hl _ (by simp)) hc
      · exact Assign.continues hf.1 hc
  | .branch condition yes no =>
    simp only [Stmt.starts, List.mem_cons, List.mem_append] at hs
    rcases hs with rfl | hs
    · exact begins_here (by simp) next rest
    · simp only [Stmt.all, Bool.and_eq_true, Stmt.hasReturn, Bool.or_eq_true, Stmt.lines] at hf hy hl ⊢
      rw [labelNames_instructionLines, labelNames_allLines] at hl
      have hotherwise : generatedLabel next ∈ labels := by
        obtain ⟨names, -, hnames⟩ :=
          Stmt.numbered_elseLines tree.yields next (next + 2 + Stmt.labelCounts yes) no
        exact hl _ (by simp [hnames])
      refine Begins.code _ ?_ fun before hc => Expr.continues_test hf.1 hotherwise hc
      rcases hs with hs | hs
      · exact Stmt.begins_all hf.2.1 (fun hn => hy (.inl hn)) (fun name hm => hl name (by simp [hm])) hs _
      · -- The lines in front of the else block are those of the first block, without what follows them.
        rw [allLines_eq]
        refine Begins.behind _ ?_ fun before hc => ?_
        · rw [← Nat.add_assoc] at hs
          exact Stmt.begins_else hf.2.2 (fun hn => hy (.inr hn)) (fun name hm => hl name (by simp [hm])) hs _
        · rw [← allLines_eq]
          exact Stmt.continues_all hf.2.1 (fun hn => hy (.inl hn)) (fun name hm => hl name (by simp [hm])) hc
  | .block body =>
    simp only [Stmt.starts] at hs
    simp only [Stmt.all, Stmt.hasReturn, Stmt.lines] at hf hy hl ⊢
    exact Stmt.begins_all hf hy hl hs rest

theorem Stmt.begins_all {body : List Stmt}
    (hf : Stmt.allOf (Expr.fits tree) (Call.fits tree) body = true)
    (hy : Stmt.anyReturn body = true → f.yields = true) {next k : Nat}
    (hl : ∀ name ∈ labelNames (Stmt.allLines tree.yields next body []), name ∈ labels)
    (hs : start ∈ Stmt.allStarts tree.yields next k body) (rest : List Program.Line) :
    Begins tree f labels 0 k (Stmt.allLines tree.yields next body rest) start := by
  match body with
  | [] => simp [Stmt.allStarts] at hs
  | stmt :: body =>
    simp only [Stmt.allStarts, List.mem_append] at hs
    simp only [Stmt.allOf, Bool.and_eq_true, Stmt.anyReturn, Bool.or_eq_true, Stmt.allLines] at hf hy hl ⊢
    rw [labelNames_lines] at hl
    have hlstmt : ∀ name ∈ labelNames (stmt.lines tree.yields next []), name ∈ labels :=
      fun name hm => hl name (by simp [hm])
    rcases hs with hs | hs
    · exact Stmt.begins hf.1 (fun hn => hy (.inl hn)) hlstmt hs _
    · rw [lines_eq]
      refine Begins.behind _ ?_ fun before hc => ?_
      · exact Stmt.begins_all hf.2 (fun hn => hy (.inr hn)) (fun name hm => hl name (by simp [hm])) hs _
      · rw [← lines_eq]
        exact Stmt.continues hf.1 (fun hn => hy (.inl hn)) hlstmt hc

theorem Stmt.begins_else {no : Option (List Stmt)}
    (hf : Stmt.allOption (Expr.fits tree) (Call.fits tree) no = true)
    (hy : Stmt.anyReturnOption no = true → f.yields = true) {otherwise next k : Nat}
    (hl : ∀ name ∈ labelNames (Stmt.elseLines tree.yields otherwise next no
      [.label (generatedLabel (otherwise + 1))]), name ∈ labels)
    (hs : start ∈ Stmt.elseStarts tree.yields next k no) (rest : List Program.Line) :
    Begins tree f labels 0 k (Stmt.elseLines tree.yields otherwise next no rest) start := by
  match no with
  | none => simp [Stmt.elseStarts] at hs
  | some body =>
    simp only [Stmt.elseStarts] at hs
    simp only [Stmt.allOption, Stmt.anyReturnOption] at hf hy
    rw [labelNames_elseLines] at hl
    simp only [Stmt.elseLines]
    refine Begins.code [_] (Begins.label ?_) fun before hc => continues_jump (hl _ (by simp)) hc
    exact Stmt.begins_all hf hy (fun name hm => hl name (by simp [hm])) hs rest

end

end Levels

/-! ## Charts of functions -/

section Functions

variable {tree : Tree} {f : Function} {p : Program} {next : Nat}

theorem bodyLines_eq (yields : Yields) (next : Nat) (f : Function) (rest : List Program.Line) :
    f.bodyLines yields next rest = f.bodyLines yields next [] ++ rest := by
  simp only [Function.bodyLines, ← instructionLines_append, ← Stmt.allLines_append, List.nil_append]

theorem labelNames_bodyLines (yields : Yields) (next : Nat) (f : Function) :
    labelNames (f.bodyLines yields next []) = f.labels yields next := by
  unfold Function.bodyLines Function.labels
  rw [labelNames_instructionLines, labelNames_allLines, labelNames_instructionLines]
  exact List.append_nil _

/-- The code of a statement of a function stands where the statement starts, and starts at the level. -/
theorem Walk.located_start (hf : Stmt.allOf (Expr.fits tree) (Call.fits tree) f.body = true)
    {hs : List (Option Nat)} (hw : Walk tree f (f.labels tree.yields next) (some f.params.length)
      (f.bodyLines tree.yields next []) hs none) {k : Nat}
    (hl : p.Located k (f.bodyLines tree.yields next [])) {start : Start}
    (hstart : start ∈ Stmt.allStarts tree.yields next (k + f.params.length) f.body) :
    (∃ next rest, p.Located start.position (start.stmt.lines tree.yields next rest)) ∧
      ∃ j a, start.position = k + j ∧ hs[j]? = some a ∧ Level a := by
  have hbegins : Begins tree f (f.labels tree.yields next) f.params.length k
      (f.bodyLines tree.yields next []) start := by
    refine Begins.code _ ?_ fun before hc => continues_params hc
    rw [List.length_map]
    exact Stmt.begins_all hf id (fun name hm => hm) hstart _
  obtain ⟨before, next', behind, hlines, hposition, hpos, hc⟩ := hbegins
  rw [hlines] at hw hl
  -- The walk over the body parts where the statement starts, and in front of it there is only one walk.
  obtain ⟨hsBefore, b, hsBehind, rfl, hbefore, hbehind⟩ := hw.split
  obtain ⟨hs', b', hw', hlevel⟩ := hc (some f.params.length) (.inr rfl)
  obtain ⟨-, rfl⟩ := hw'.unique hbefore
  obtain ⟨a, ha, hlevel'⟩ := hbehind.level hlevel hpos
  refine ⟨⟨next', behind, ?_⟩, hsBefore.length, a, by rw [hposition, hbefore.length], ?_, hlevel'⟩
  · rw [hposition]
    exact hl.append.2
  · rw [List.getElem?_append_right (Nat.le_refl _), Nat.sub_self]
    exact ha

end Functions

/-! ## Charts of programs -/

/-- For each instruction its function and its height, where control comes to it. -/
abbrev Chart := List (Function × Option Nat)

section Charts

variable (tree : Tree) (p : Program) (T : Chart)

/-- The instruction at a place suits its height. Control goes on behind it, if at all, at the height that the
chart has there, and the labels that it may jump to are at the level of the same function. -/
def Leads (k : Nat) (f : Function) (h : Nat) : Prop :=
  ∃ i b labels, p.instructions[k]? = some i ∧ Suits tree f labels i h b ∧
    (∀ h', b = some h' → T[k + 1]? = some (f, some h')) ∧
    ∀ label ∈ labels, ∃ target, p.labels.get? label = some target ∧ T[target]? = some (f, some 0)

/-- From a position on, a chart is right for functions that stand there. -/
structure Charts (k next : Nat) (functions : List Function) : Prop where
  leads : ∀ {l f h}, k ≤ l → T[l]? = some (f, some h) → Leads tree p T l f h
  entry : ∀ f ∈ functions, ∃ l, p.labels.get? f.name = some l ∧ T[l]? = some (f, some f.params.length)
  starts : ∀ entry ∈ functionStarts tree.yields next k functions,
    (∃ next rest, p.Located entry.2.position (entry.2.stmt.lines tree.yields next rest)) ∧
      ∃ a, T[entry.2.position]? = some (entry.1, a) ∧ Level a

end Charts

section Charts

variable {tree : Tree} {p : Program}

/-- Behind any other chart there is one for functions that follow each other. -/
theorem exists_charts {functions : List Function}
    (hf : ∀ f ∈ functions, Stmt.allOf (Expr.fits tree) (Call.fits tree) f.body = true) {next : Nat}
    {done : Chart} (hl : p.Located done.length (functionLines tree.yields next functions)) :
    ∃ T, Charts tree p (done ++ T) done.length next functions := by
  induction functions generalizing next done with
  | nil =>
    refine ⟨[], fun hk hT => ?_, by simp, by simp [functionStarts]⟩
    rw [List.append_nil, List.getElem?_eq_none hk] at hT
    cases hT
  | cons f functions ih =>
    have hbody := hf f (List.mem_cons_self ..)
    obtain ⟨hs, hw⟩ := f.exists_walk hbody next
    obtain ⟨hname, hlines⟩ := hl
    change p.Located done.length (f.bodyLines tree.yields next _) at hlines
    rw [bodyLines_eq] at hlines
    obtain ⟨hhere, hrest⟩ := hlines.append
    have hlength : (done ++ hs.map (f, ·)).length =
        done.length + instructionCount (f.bodyLines tree.yields next []) := by
      rw [List.length_append, List.length_map, hw.length]
    rw [← hlength] at hrest
    obtain ⟨T, hT⟩ := ih (fun g hg => hf g (List.mem_cons_of_mem _ hg)) hrest
    -- The heights of the function stand in the chart behind what was there before.
    have hplace : ∀ {j : Nat} {a : Option Nat}, hs[j]? = some a →
        (done ++ hs.map (f, ·) ++ T)[done.length + j]? = some (f, a) := by
      intro j a hj
      have hlt := (List.getElem?_eq_some_iff.1 hj).1
      rw [List.append_assoc, List.getElem?_append_right (Nat.le_add_right ..), Nat.add_sub_cancel_left,
        List.getElem?_append_left (by simpa using hlt), List.getElem?_map, hj]
      rfl
    have hlabels : ∀ label ∈ f.labels tree.yields next, ∃ target, p.labels.get? label = some target ∧
        (done ++ hs.map (f, ·) ++ T)[target]? = some (f, some 0) := by
      intro label hm
      rw [← labelNames_bodyLines] at hm
      obtain ⟨j, hget, hj⟩ := hw.located_label hhere hm
      exact ⟨_, hget, hplace hj⟩
    refine ⟨hs.map (f, ·) ++ T, ?_⟩
    rw [← List.append_assoc]
    refine ⟨fun {l g h} hk hl => ?_, fun g hg => ?_, fun entry hentry => ?_⟩
    · by_cases hlt : l < (done ++ hs.map (f, ·)).length
      · obtain ⟨j, rfl⟩ := Nat.exists_eq_add_of_le hk
        have hj : j < hs.length := by
          simpa using hlt
        have hsome := List.getElem?_eq_getElem hj
        obtain ⟨rfl, hheight⟩ := Prod.mk.inj (Option.some.inj ((hplace hsome).symm.trans hl))
        rw [hheight] at hsome
        obtain ⟨i, b, hget, hi, hnext⟩ := hw.located_step hhere hsome
        exact ⟨i, b, f.labels tree.yields next, hget, hi, fun h' hb => hplace (hnext h' hb), hlabels⟩
      · exact hT.leads (Nat.le_of_not_lt hlt) hl
    · rcases List.mem_cons.1 hg with rfl | hg
      · exact ⟨_, hname, by simpa using hplace hw.head⟩
      · exact hT.entry g hg
    · simp only [functionStarts, List.mem_append, List.mem_map] at hentry
      rcases hentry with ⟨start, hstart, rfl⟩ | hentry
      · obtain ⟨hlocated, j, a, hposition, hj, hlevel⟩ := hw.located_start hbody hhere hstart
        refine ⟨hlocated, a, ?_, hlevel⟩
        rw [hposition]
        exact hplace hj
      · rw [← hlength] at hentry
        exact hT.starts entry hentry

end Charts

end CMinusMinus
