import CMinusMinus.Proofs.Code.Layout
import CMinusMinus.Proofs.Source.Names

/-!
# What generated code consists of

There are only so many kinds of instructions in generated code. Names come from the tree, jumps go to labels
that are generated for the same piece of code, calls name no builtin, and a `return` leaves one value where
there is a `return` in the source text.
-/

namespace CMinusMinus

/-- An instruction of generated code: the names of the tree have a property, a return leaves `left` values,
and the labels to jump to have numbers from `low` up to `high`. -/
inductive Instruction.Emitted (N : String → Prop) (left low high : Nat) : Instruction → Prop where
  | numeral (value : Int) : Emitted N left low high (.push (Text.numeral value))
  | push {name : String} (h : N name) : Emitted N left low high (.push name)
  | bind {name : String} (h : N name) : Emitted N left low high (.bind name)
  | store {name : String} (h : N name) : Emitted N left low high (.store name)
  | drop : Emitted N left low high .drop
  /-- The instructions that have the name of an array as their argument. -/
  | ofArray {opcode : Opcode} (ho : opcode ∈ [.array, .access, .length]) {name : String} (h : N name) :
    Emitted N left low high ⟨opcode, [name]⟩
  | neg : Emitted N left low high ⟨.neg, []⟩
  | binary (op : BinaryOp) : Emitted N left low high ⟨.binary op, []⟩
  | print : Emitted N left low high ⟨.print, []⟩
  | call {name : String} (h : N name) (hl : name ≠ lengthName) : Emitted N left low high ⟨.call, [name]⟩
  | jump {opcode : Opcode} (ho : opcode ∈ [.jz, .jmp]) {number : Nat} (hl : low ≤ number)
    (hh : number < high) : Emitted N left low high ⟨opcode, [generatedLabel number]⟩
  | ret : Emitted N left low high (.ret left)

/-- The instructions of generated code have as many arguments as their operations accept. -/
theorem Instruction.Emitted.accepts {N : String → Prop} {left low high : Nat} {i : Instruction}
    (h : i.Emitted N left low high) : i.opcode.accepts i.args.length = true := by
  cases h with
  | ofArray ho _ =>
    simp only [List.mem_cons, List.not_mem_nil, or_false] at ho
    rcases ho with rfl | rfl | rfl <;> rfl
  | jump ho _ _ =>
    simp only [List.mem_cons, List.not_mem_nil, or_false] at ho
    rcases ho with rfl | rfl <;> rfl
  | _ => rfl

/-- Every name of a list has a property. -/
def Names (N : String → Prop) (names : List String) : Prop :=
  ∀ name ∈ names, N name

section Emitted

variable {N : String → Prop} {left low high : Nat}

/-! ## Code -/

theorem emitted_nil : ∀ i ∈ ([] : List Instruction), i.Emitted N left low high :=
  nofun

theorem emitted_cons {i : Instruction} (hi : i.Emitted N left low high) {rest : List Instruction}
    (hrest : ∀ i ∈ rest, i.Emitted N left low high) : ∀ j ∈ i :: rest, j.Emitted N left low high :=
  List.forall_mem_cons.2 ⟨hi, hrest⟩

theorem emitted_singleton {i : Instruction} (hi : i.Emitted N left low high) :
    ∀ j ∈ [i], j.Emitted N left low high :=
  List.forall_mem_singleton.2 hi

theorem emitted_jz {number : Nat} (hl : low ≤ number) (hh : number < high) :
    Instruction.Emitted N left low high ⟨.jz, [generatedLabel number]⟩ :=
  .jump (by decide) hl hh

theorem emitted_jmp {number : Nat} (hl : low ≤ number) (hh : number < high) :
    Instruction.Emitted N left low high ⟨.jmp, [generatedLabel number]⟩ :=
  .jump (by decide) hl hh

mutual

theorem Expr.emitted_code {e : Expr} (h : Names N e.names) {rest : List Instruction}
    (hrest : ∀ i ∈ rest, i.Emitted N left low high) : ∀ i ∈ e.code rest, i.Emitted N left low high := by
  match e with
  | .int value => exact emitted_cons (.numeral value) hrest
  | .place name [] loc =>
    obtain ⟨hname, -⟩ := List.forall_mem_cons.1 h
    exact emitted_cons (.push hname) hrest
  | .place name (index :: indices) loc =>
    obtain ⟨hname, hindices⟩ := List.forall_mem_cons.1 h
    obtain ⟨hindex, -⟩ := List.forall_mem_append.1 hindices
    have haccess : Instruction.Emitted N left low high ⟨.access, [name]⟩ := .ofArray (by decide) hname
    exact Expr.emitted_code hindex (emitted_cons haccess hrest)
  | .call name args loc =>
    obtain ⟨hname, hargs⟩ := List.forall_mem_cons.1 h
    simp only [Expr.code]
    split
    · -- The length of a variable has the variable for its argument, and other lengths have no code.
      match args with
      | .place array indices loc :: args =>
        obtain ⟨harray, -⟩ := List.forall_mem_append.1 hargs
        obtain ⟨harray, -⟩ := List.forall_mem_cons.1 harray
        have hlength : Instruction.Emitted N left low high ⟨.length, [array]⟩ :=
          .ofArray (by decide) harray
        exact emitted_cons hlength hrest
      | [] | .int _ :: _ | .call _ _ _ :: _ | .neg _ :: _ | .binary _ _ _ :: _ => exact hrest
    · exact Expr.emitted_argsCode hargs (emitted_cons (.call hname ‹_›) hrest)
  | .neg operand => exact Expr.emitted_code (e := operand) h (emitted_cons .neg hrest)
  | .binary op lhs rhs =>
    obtain ⟨hl, hr⟩ := List.forall_mem_append.1 h
    exact Expr.emitted_code hl (Expr.emitted_code hr (emitted_cons (.binary op) hrest))

theorem Expr.emitted_argsCode {args : List Expr} (h : Names N (Expr.namesOf args))
    {rest : List Instruction} (hrest : ∀ i ∈ rest, i.Emitted N left low high) :
    ∀ i ∈ Expr.argsCode args rest, i.Emitted N left low high := by
  match args with
  | [] => exact hrest
  | arg :: args =>
    obtain ⟨harg, hargs⟩ := List.forall_mem_append.1 h
    exact Expr.emitted_argsCode hargs (Expr.emitted_code harg hrest)

end

theorem Assign.emitted_code {a : Assign} (h : Names N a.names) {rest : List Instruction}
    (hrest : ∀ i ∈ rest, i.Emitted N left low high) : ∀ i ∈ a.code rest, i.Emitted N left low high := by
  obtain ⟨htarget, hvalue⟩ := List.forall_mem_append.1 h
  obtain ⟨hname, hindices⟩ := List.forall_mem_cons.1 htarget
  refine Expr.emitted_code hvalue ?_
  cases hi : a.target.indices with
  | nil => exact emitted_cons (.bind hname) hrest
  | cons index indices =>
    rw [hi] at hindices
    obtain ⟨hindex, -⟩ := List.forall_mem_append.1 hindices
    exact Expr.emitted_code hindex (emitted_cons (.store hname) hrest)

/-! ## Lines -/

/-- Lines whose instructions are those of generated code. -/
def EmittedLines (N : String → Prop) (left low high : Nat) (lines : List Program.Line) : Prop :=
  ∀ i, .instruction i ∈ lines → i.Emitted N left low high

theorem emittedLines_nil : EmittedLines N left low high [] :=
  nofun

section Lines

variable {rest : List Program.Line} (hrest : EmittedLines N left low high rest)
include hrest

theorem EmittedLines.label (name : String) : EmittedLines N left low high (.label name :: rest) := by
  intro i hi
  rcases List.mem_cons.1 hi with hi | hi
  · cases hi
  · exact hrest i hi

theorem EmittedLines.code {code : List Instruction} (hcode : ∀ i ∈ code, i.Emitted N left low high) :
    EmittedLines N left low high (instructionLines code rest) := by
  intro i hi
  rcases List.mem_append.1 hi with hi | hi
  · obtain ⟨j, hj, he⟩ := List.mem_map.1 hi
    cases he
    exact hcode i hj
  · exact hrest i hi

theorem EmittedLines.loop {next : Nat} (hl : low ≤ next) (hh : next + 2 ≤ high) {condition : Expr}
    (hcondition : Names N condition.names) {body : List Program.Line → List Program.Line}
    (hbody : ∀ rest, EmittedLines N left low high rest → EmittedLines N left low high (body rest))
    {step : List Instruction} (hstep : ∀ i ∈ step, i.Emitted N left low high) :
    EmittedLines N left low high (loopLines next condition body step rest) := by
  have hexit : Instruction.Emitted N left low high ⟨.jz, [generatedLabel (next + 1)]⟩ :=
    emitted_jz (by omega) (by omega)
  have hback : ∀ i ∈ step ++ [⟨.jmp, [generatedLabel next]⟩], i.Emitted N left low high :=
    List.forall_mem_append.2 ⟨hstep, emitted_singleton (emitted_jmp hl (by omega))⟩
  have htest := Expr.emitted_code hcondition (emitted_singleton hexit)
  exact .label (.code (hbody _ (.code (.label hrest _) hback)) htest) _

end Lines

variable (yields : Yields)

mutual

theorem Stmt.emitted_lines {next : Nat} {stmt : Stmt} (h : Names N stmt.names)
    (hr : stmt.hasReturn = true → left = 1) (hl : low ≤ next) (hh : next + stmt.labelCount ≤ high)
    {rest : List Program.Line} (hrest : EmittedLines N left low high rest) :
    EmittedLines N left low high (stmt.lines yields next rest) := by
  match stmt with
  | .print value => exact hrest.code (Expr.emitted_code h (emitted_singleton .print))
  | .ret value =>
    obtain rfl := hr rfl
    exact hrest.code (Expr.emitted_code h (emitted_singleton .ret))
  | .assign a => exact hrest.code (Assign.emitted_code h emitted_nil)
  | .array name size =>
    obtain ⟨hname, hsize⟩ := List.forall_mem_cons.1 h
    have harray : Instruction.Emitted N left low high ⟨.array, [name]⟩ := .ofArray (by decide) hname
    exact hrest.code (Expr.emitted_code hsize (emitted_singleton harray))
  | .call c =>
    have hdrop : ∀ i ∈ if yields.leavesValue c.name then [Instruction.drop] else [],
        i.Emitted N left low high := by
      split
      · exact emitted_singleton .drop
      · exact emitted_nil
    exact hrest.code (Expr.emitted_code (e := .call c.name c.args c.loc) h hdrop)
  | .whileLoop condition body =>
    simp only [Stmt.labelCount] at hh
    obtain ⟨hcondition, hbody⟩ := List.forall_mem_append.1 h
    exact hrest.loop hl (by omega) hcondition
      (fun _ => Stmt.emitted_allLines hbody hr (by omega) (by omega)) emitted_nil
  | .forLoop init condition step body =>
    simp only [Stmt.labelCount] at hh
    obtain ⟨hinit, h⟩ := List.forall_mem_append.1 h
    obtain ⟨hcondition, h⟩ := List.forall_mem_append.1 h
    obtain ⟨hstep, hbody⟩ := List.forall_mem_append.1 h
    refine EmittedLines.code ?_ (Assign.emitted_code hinit emitted_nil)
    exact hrest.loop hl (by omega) hcondition
      (fun _ => Stmt.emitted_allLines hbody hr (by omega) (by omega))
      (Assign.emitted_code hstep emitted_nil)
  | .branch condition yes no =>
    simp only [Stmt.labelCount] at hh
    simp only [Stmt.hasReturn, Bool.or_eq_true] at hr
    obtain ⟨hcondition, h⟩ := List.forall_mem_append.1 h
    obtain ⟨hyes, hno⟩ := List.forall_mem_append.1 h
    have hskip : Instruction.Emitted N left low high ⟨.jz, [generatedLabel next]⟩ :=
      emitted_jz hl (by omega)
    have htest := Expr.emitted_code hcondition (emitted_singleton hskip)
    refine EmittedLines.code ?_ htest
    refine Stmt.emitted_allLines hyes (fun hy => hr (.inl hy)) (by omega) (by omega) ?_
    exact Stmt.emitted_elseLines hno (fun hn => hr (.inr hn)) (by omega) (by omega) (by omega) (by omega)
      (hrest.label _)
  | .block body => exact Stmt.emitted_allLines h hr hl hh hrest

theorem Stmt.emitted_allLines {next : Nat} {body : List Stmt} (h : Names N (Stmt.namesOf body))
    (hr : Stmt.anyReturn body = true → left = 1) (hl : low ≤ next)
    (hh : next + Stmt.labelCounts body ≤ high) {rest : List Program.Line}
    (hrest : EmittedLines N left low high rest) :
    EmittedLines N left low high (Stmt.allLines yields next body rest) := by
  match body with
  | [] => exact hrest
  | stmt :: body =>
    simp only [Stmt.labelCounts] at hh
    simp only [Stmt.anyReturn, Bool.or_eq_true] at hr
    obtain ⟨hstmt, hbody⟩ := List.forall_mem_append.1 h
    exact Stmt.emitted_lines hstmt (fun hs => hr (.inl hs)) hl (by omega)
      (Stmt.emitted_allLines hbody (fun hb => hr (.inr hb)) (by omega) (by omega) hrest)

theorem Stmt.emitted_elseLines {otherwise next : Nat} {no : Option (List Stmt)}
    (h : Names N (Stmt.namesOption no)) (hr : Stmt.anyReturnOption no = true → left = 1)
    (ho : low ≤ otherwise) (ho' : otherwise + 2 ≤ high) (hl : low ≤ next)
    (hh : next + Stmt.labelCountOption no ≤ high) {rest : List Program.Line}
    (hrest : EmittedLines N left low high rest) :
    EmittedLines N left low high (Stmt.elseLines yields otherwise next no rest) := by
  match no with
  | none => exact hrest.label _
  | some body =>
    have hjump : Instruction.Emitted N left low high ⟨.jmp, [generatedLabel (otherwise + 1)]⟩ :=
      emitted_jmp (by omega) (by omega)
    have hbody := (Stmt.emitted_allLines h hr hl hh hrest).label (generatedLabel otherwise)
    have hlines := hbody.code (emitted_singleton hjump)
    exact hlines

end

theorem Function.emitted_lines {next : Nat} {f : Function} (h : Names N f.names)
    (hleft : left = if f.yields then 1 else 0) (hl : low ≤ next)
    (hh : next + Stmt.labelCounts f.body ≤ high) {rest : List Program.Line}
    (hrest : EmittedLines N left low high rest) :
    EmittedLines N left low high (f.lines yields next rest) := by
  obtain ⟨-, h⟩ := List.forall_mem_cons.1 h
  obtain ⟨hparams, hbody⟩ := List.forall_mem_append.1 h
  have hbinds : ∀ i ∈ f.params.map Instruction.bind, i.Emitted N left low high := by
    intro i hi
    obtain ⟨param, hparam, rfl⟩ := List.mem_map.1 hi
    exact .bind (hparams param hparam)
  have hepilogue : ∀ i ∈ f.epilogue, i.Emitted N left low high := by
    unfold Function.epilogue
    split
    · exact emitted_nil
    · subst hleft
      split
      · exact emitted_cons (.numeral 0) (emitted_singleton .ret)
      · exact emitted_singleton .ret
  have hreturn : Stmt.anyReturn f.body = true → left = 1 := fun hr => hleft.trans (if_pos hr)
  exact .label (.code (Stmt.emitted_allLines yields hbody hreturn hl hh (hrest.code hepilogue)) hbinds) _

/-- The instructions of functions leave one value at most. -/
theorem emitted_functionLines {next : Nat} {functions : List Function} (h : ∀ f ∈ functions, Names N f.names)
    {i : Instruction} (hi : .instruction i ∈ functionLines yields next functions) :
    ∃ left ≤ 1, ∃ low high, i.Emitted N left low high := by
  induction functions generalizing next with
  | nil => cases hi
  | cons f functions ih =>
    obtain ⟨hf, hfunctions⟩ := List.forall_mem_cons.1 h
    rw [functionLines, ← List.nil_append (functionLines ..), Function.lines_append] at hi
    rcases List.mem_append.1 hi with hi | hi
    · refine ⟨if f.yields then 1 else 0, ?_, next, next + Stmt.labelCounts f.body, ?_⟩
      · split <;> decide
      · exact Function.emitted_lines yields hf rfl (Nat.le_refl next) (Nat.le_refl _) emittedLines_nil i hi
    · exact ih hfunctions hi

end Emitted

end CMinusMinus
