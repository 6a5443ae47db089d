import CMinusMinus.Proofs.Code.Chart
import CMinusMinus.Proofs.Code.Emission
import CMinusMinus.Proofs.Code.Writing
import CMinusMinus.Proofs.Optimizer.Liveness

/-!
# The structure of generated code

Functions stand in a row, each from its label up to a `return`, and control leaves the code of a function by
calls and returns only: jumps go to labels that are generated for the function and stand in front of one of
its instructions. What remains for a search to miss is the label of a call.
-/

namespace CMinusMinus

/-! ## Lookups in lines -/

section Lookup

variable {p : Program} {k : Nat} {lines : List Program.Line}

theorem Program.Located.instruction (h : p.Located k lines) {j : Nat} (hj : j < instructionCount lines) :
    ∃ i, .instruction i ∈ lines ∧ p.instructions[k + j]? = some i := by
  induction lines generalizing k j with
  | nil => simp [instructionCount] at hj
  | cons line lines ih =>
    cases line with
    | label name =>
      obtain ⟨i, hi, hget⟩ := ih h.2 (by simpa [instructionCount] using hj)
      exact ⟨i, List.mem_cons_of_mem _ hi, hget⟩
    | instruction i =>
      cases j with
      | zero => exact ⟨i, List.mem_cons_self .., h.1⟩
      | succ j =>
        obtain ⟨i', hi, hget⟩ := ih h.2 (by simpa [instructionCount] using hj)
        exact ⟨i', List.mem_cons_of_mem _ hi, by rwa [Nat.add_right_comm] at hget⟩

theorem Program.Located.label (h : p.Located k lines) {name : String} (hm : name ∈ labelNames lines) :
    ∃ j ≤ instructionCount lines, p.labels.get? name = some (k + j) := by
  induction lines generalizing k with
  | nil => cases hm
  | cons line lines ih =>
    cases line with
    | label name' =>
      rcases List.mem_cons.1 hm with rfl | hm
      · exact ⟨0, Nat.zero_le _, h.1⟩
      · obtain ⟨j, hj, hget⟩ := ih h.2 hm
        exact ⟨j, by simpa [instructionCount] using hj, hget⟩
    | instruction i =>
      obtain ⟨j, hj, hget⟩ := ih h.2 hm
      exact ⟨j + 1, by simpa [instructionCount] using hj, by rw [hget, Nat.add_right_comm, Nat.add_assoc]⟩

end Lookup

theorem Program.size_ofLines (lines : List Program.Line) :
    (Program.ofLines lines).size = instructionCount lines := by
  have hlist : (Program.ofLines lines).instructions.toList = lines.filterMap Program.Line.instruction? :=
    Program.instructions_foldl_push .empty lines
  rw [Program.size, ← Array.length_toList, hlist, List.length_filterMap_eq_countP, instructionCount]
  congr 1
  funext line
  cases line <;> rfl

/-! ## The end of a function -/

section Ends

variable (yields : Yields)

/-- The code of a body that ends with a `return` ends with one. -/
theorem Stmt.allLines_endsWithReturn {body : Block} (he : body.endsWithReturn = true) (next : Nat) :
    ∃ before, Stmt.allLines yields next body [] = before ++ [.instruction (.ret 1)] := by
  induction body, he using Block.endsWithReturn_induction generalizing next with
  | last value =>
    obtain ⟨before, hcode⟩ := value.suffix_code [.ret 1]
    refine ⟨before.map .instruction, ?_⟩
    simp only [Stmt.allLines, Stmt.lines, instructionLines, ← hcode, List.map_append, List.append_nil]
    rfl
  | step stmt body he ih =>
    obtain ⟨before, hlines⟩ := ih (next + stmt.labelCount)
    refine ⟨stmt.lines yields next [] ++ before, ?_⟩
    rw [Stmt.allLines, lines_eq, hlines, List.append_assoc]

/-- The last instruction of a function returns what a call of it leaves. -/
theorem Function.bodyLines_ends (next : Nat) (f : Function) :
    ∃ before, f.bodyLines yields next [] = before ++ [.instruction (.ret f.left)] := by
  unfold Function.bodyLines Function.epilogue
  by_cases he : f.body.endsWithReturn = true
  · -- The body has a `return`, so a value is left.
    have hleft : f.left = 1 := if_pos (Block.anyReturn_of_endsWithReturn he)
    obtain ⟨before, hlines⟩ := Stmt.allLines_endsWithReturn yields he next
    refine ⟨instructionLines (f.params.map .bind) before, ?_⟩
    rw [if_pos he, hleft, ← instructionLines_append, ← hlines]
    rfl
  · rw [if_neg he, allLines_eq]
    by_cases hy : f.yields = true
    · have hleft : f.left = 1 := if_pos hy
      refine ⟨instructionLines (f.params.map .bind)
        (Stmt.allLines yields next f.body [] ++ [.instruction (.push "0")]), ?_⟩
      rw [if_pos hy, hleft, ← instructionLines_append, List.append_assoc]
      rfl
    · have hleft : f.left = 0 := if_neg hy
      refine ⟨instructionLines (f.params.map .bind) (Stmt.allLines yields next f.body []), ?_⟩
      rw [if_neg hy, hleft, ← instructionLines_append]
      rfl

end Ends

/-! ## Where a function stands -/

/-- An instruction of a function whose code takes the positions from `low` up to `high` of a program with
`count` generated labels: where it may send control, and what it returns. -/
structure Function.Holds (f : Function) (p : Program) (count low high : Nat) (i : Instruction) : Prop where
  jump : i.opcode = .jz ∨ i.opcode = .jmp → ∃ number < count, i.args = [generatedLabel number] ∧
    ∃ target, p.labels.get? (generatedLabel number) = some target ∧ low ≤ target ∧ target < high
  ret : i.opcode = .ret → i = .ret f.left
  call : i.opcode = .call → ∃ name, i.args = [name] ∧ name ≠ lengthName

/-- The code of a function takes the positions from `low` up to `high` of a program with `count` generated
labels. -/
structure Function.Spans (f : Function) (p : Program) (count low high : Nat) : Prop where
  label : p.labels.get? f.name = some low
  nonempty : low < high
  last : p.instructions[high - 1]? = some (.ret f.left)
  code : ∀ k, low ≤ k → k < high → ∃ i, p.instructions[k]? = some i ∧ f.Holds p count low high i

/-- Functions take the positions of a program from `low` up to `high`, one behind the other. -/
def Tiles (p : Program) (count low : Nat) (functions : List Function) (high : Nat) : Prop :=
  match functions with
  | [] => low = high
  | f :: functions => ∃ middle, f.Spans p count low middle ∧ Tiles p count middle functions high

theorem Instruction.Emitted.holds {N : String → Prop} {f : Function} {p : Program}
    {a b count low high : Nat} {i : Instruction} (hi : i.Emitted N f.left a b) (hb : b ≤ count)
    (hlabels : ∀ number, a ≤ number → number < b →
      ∃ target, p.labels.get? (generatedLabel number) = some target ∧ low ≤ target ∧ target < high) :
    f.Holds p count low high i := by
  cases hi with
  | @jump opcode ho number hl hh =>
    refine ⟨fun _ => ⟨number, Nat.lt_of_lt_of_le hh hb, rfl, hlabels number hl hh⟩, ?_, ?_⟩
    all_goals
      rintro rfl
      exact absurd ho (by decide)
  | @ofArray opcode ho name h =>
    refine ⟨?_, ?_, ?_⟩
    · rintro (rfl | rfl)
      all_goals exact absurd ho (by decide)
    all_goals
      rintro rfl
      exact absurd ho (by decide)
  | @call name h hl => exact ⟨nofun, nofun, fun _ => ⟨name, rfl, hl⟩⟩
  | ret => exact ⟨nofun, fun _ => rfl, nofun⟩
  | _ => exact ⟨nofun, nofun, nofun⟩

/-- Where the lines of a function are located, its code takes as many positions as they have instructions. -/
theorem Function.spans {yields : Yields} {f : Function} {p : Program} {next count k : Nat}
    (h : p.Located k (f.lines yields next [])) (hcount : next + Stmt.labelCounts f.body ≤ count) :
    f.Spans p count k (k + instructionCount (f.lines yields next [])) := by
  obtain ⟨hlabel, hbody⟩ := h
  change p.Located k (f.bodyLines yields next []) at hbody
  change f.Spans p count k (k + instructionCount (f.bodyLines yields next []))
  have hemitted : EmittedLines (fun _ => True) f.left next (next + Stmt.labelCounts f.body)
      (f.lines yields next []) :=
    Function.emitted_lines yields (fun _ _ => trivial) rfl (Nat.le_refl next) (Nat.le_refl _) emittedLines_nil
  have hnumbered := Stmt.numbered_allLines yields next f.body
  rw [← Function.labels, ← labelNames_bodyLines] at hnumbered
  obtain ⟨before, hlines⟩ := f.bodyLines_ends yields next
  have hlength : instructionCount (f.bodyLines yields next []) = instructionCount before + 1 := by
    rw [hlines, instructionCount_append]
    rfl
  have hlast : p.instructions[k + instructionCount before]? = some (.ret f.left) := by
    rw [hlines] at hbody
    exact hbody.append.2.1
  -- All labels stand in front of the last instruction.
  have hlabels : ∀ number, next ≤ number → number < next + Stmt.labelCounts f.body →
      ∃ target, p.labels.get? (generatedLabel number) = some target ∧ k ≤ target ∧
        target < k + (instructionCount before + 1) := by
    intro number hl hh
    have hm := hnumbered.mem_iff.2 ⟨number, hl, hh, rfl⟩
    rw [hlines, labelNames_append] at hm
    rw [hlines] at hbody
    obtain ⟨j, hj, hget⟩ := hbody.append.1.label (by simpa [labelNames] using hm)
    exact ⟨k + j, hget, by omega, by omega⟩
  rw [hlength]
  refine ⟨hlabel, by omega, hlast, fun l hl hh => ?_⟩
  obtain ⟨j, rfl⟩ := Nat.exists_eq_add_of_le hl
  obtain ⟨i, hi, hget⟩ := hbody.instruction (show j < instructionCount _ by omega)
  exact ⟨i, hget, (hemitted i (List.mem_cons_of_mem _ hi)).holds hcount hlabels⟩

theorem tiles_functionLines {yields : Yields} {p : Program} {next count k : Nat} {functions : List Function}
    (h : p.Located k (functionLines yields next functions)) (hcount : next + labelTotal functions ≤ count) :
    Tiles p count k functions (k + instructionCount (functionLines yields next functions)) := by
  induction functions generalizing next k with
  | nil => rfl
  | cons f functions ih =>
    rw [labelTotal] at hcount
    rw [functionLines, ← List.nil_append (functionLines ..), Function.lines_append] at h ⊢
    obtain ⟨hf, hrest⟩ := h.append
    refine ⟨_, Function.spans hf (by omega), ?_⟩
    rw [instructionCount_append, ← Nat.add_assoc]
    exact ih hrest (by omega)

section Tiles

variable {p : Program} {count low high : Nat} {functions : List Function}

theorem Tiles.spans (h : Tiles p count low functions high) {f : Function} (hf : f ∈ functions) :
    ∃ start stop, f.Spans p count start stop := by
  induction functions generalizing low with
  | nil => cases hf
  | cons g functions ih =>
    obtain ⟨middle, hg, hrest⟩ := h
    rcases List.mem_cons.1 hf with rfl | hf
    · exact ⟨low, middle, hg⟩
    · exact ih hrest hf

/-- Every position is one of a function. -/
theorem Tiles.covers (h : Tiles p count low functions high) {k : Nat} (hl : low ≤ k) (hh : k < high) :
    ∃ f ∈ functions, ∃ start stop, f.Spans p count start stop ∧ start ≤ k ∧ k < stop := by
  induction functions generalizing low with
  | nil =>
    rw [Tiles] at h
    omega
  | cons f functions ih =>
    obtain ⟨middle, hf, hrest⟩ := h
    by_cases hk : k < middle
    · exact ⟨f, List.mem_cons_self .., low, middle, hf, hl, hk⟩
    · obtain ⟨g, hg, hspans⟩ := ih hrest (Nat.le_of_not_lt hk)
      exact ⟨g, List.mem_cons_of_mem _ hg, hspans⟩

/-- In a row of functions only a call has a label that is not defined. -/
theorem Tiles.successors_error (h : Tiles p count 0 functions p.size) {k : Nat} {e : OptimizeError}
    (he : p.successors k = .error e) :
    ∃ name, e = .unresolvedLabel name k ∧ p.instructions[k]? = some ⟨.call, [name]⟩ ∧
      p.labels.get? name = none := by
  cases hget : p.instructions[k]? with
  | none =>
    rw [Program.successors, hget] at he
    cases he
  | some i =>
    obtain ⟨f, -, start, stop, hspans, hl, hh⟩ :=
      h.covers (Nat.zero_le k) (Array.getElem?_eq_some_iff.1 hget).1
    obtain ⟨i', hget', hholds⟩ := hspans.code k hl hh
    obtain rfl := Option.some.inj (hget.symm.trans hget')
    rw [Program.successors_eq hget] at he
    obtain ⟨opcode, args⟩ := i
    cases opcode with
    | jz | jmp =>
      obtain ⟨number, -, hargs, target, htarget, -⟩ := hholds.jump (by simp)
      rw [Program.target_eq hargs htarget] at he
      cases he
    | call =>
      obtain ⟨name, rfl, -⟩ := hholds.call rfl
      cases hname : p.labels.get? name with
      | none =>
        simp only [Program.target, List.headD_cons, hname] at he
        cases he
        exact ⟨name, rfl, rfl, hname⟩
      | some target =>
        rw [Program.target_eq rfl hname] at he
        cases he
    | _ => cases he

end Tiles

/-! ## Generated programs -/

/-- The identifiers of a source text are no generated labels. -/
theorem ne_generatedLabel_of_parse {source : String} {tree : Tree} (h : parse source = .ok tree) :
    ∀ f ∈ tree.functions, ∀ n, f.name ≠ generatedLabel n := by
  intro f hf
  have hname : f.name ∈ tree.names := List.mem_flatMap.2 ⟨f, hf, List.mem_cons_self ..⟩
  exact generatedLabel_ne (isIdentifier_of_parse h f.name hname)

/-- A program of a tree has the labels of the functions and those that are generated, each placed once, and
the functions stand in it in a row. Where `main` is declared, the search for unreachable code fails at a call
of a function that is not declared, if at all. No function may have the name of a label that is generated for
the tree, which an identifier never is. -/
theorem Tree.compile_structured {tree : Tree} {p : Program} (h : tree.compile = .ok p)
    (hnames : ∀ f ∈ tree.functions, ∀ n < labelTotal tree.functions, f.name ≠ generatedLabel n) :
    p.labels.entries.map Prod.fst = labelNames tree.lines ∧ (labelNames tree.lines).Nodup ∧
    (labelNames tree.lines).Perm (tree.functions.map Function.name ++
      (List.range (labelTotal tree.functions)).map generatedLabel) ∧
    Tiles p (labelTotal tree.functions) 0 tree.functions p.size ∧
    ((∃ f ∈ tree.functions, f.name = Program.entryName) → ∀ e, p.prune = .error e →
      ∃ k name, e = .unresolvedLabel name k ∧ p.Live k ∧ p.instructions[k]? = some ⟨.call, [name]⟩ ∧
        ∀ f ∈ tree.functions, f.name ≠ name) := by
  obtain ⟨hcheck, rfl⟩ := Tree.compile_eq_ok h
  obtain ⟨hfunctions, -⟩ := Tree.check_ok hcheck
  have hnodup : (labelNames tree.lines).Nodup := by
    refine (nodup_functionLines_iff tree.yields 0).2 ⟨hfunctions, fun f hf n _ hn => hnames f hf n ?_⟩
    rwa [Nat.zero_add] at hn
  have htiles : Tiles tree.generate (labelTotal tree.functions) 0 tree.functions tree.generate.size := by
    have hrow := tiles_functionLines (Program.located_ofLines hnodup) (Nat.le_of_eq (Nat.zero_add _))
    rwa [Nat.zero_add, ← Program.size_ofLines] at hrow
  refine ⟨?_, hnodup, ?_, htiles, ?_⟩
  · have hentries : tree.generate.labels.entries = Program.placed 0 tree.lines :=
      Program.entries_foldl_push hnodup
    rw [hentries, Program.map_fst_placed]
  · rw [List.range_eq_range']
    exact labelNames_functionLines tree.yields 0 tree.functions
  · rintro ⟨main, hmain, hname⟩ e he
    obtain ⟨low, high, hspans⟩ := htiles.spans hmain
    have hentry : tree.generate.entry? = some low := by
      rw [Program.entry?, ← hname]
      exact hspans.label
    have hsearch : tree.generate.reachable = .error e := by
      rw [Program.prune] at he
      cases hr : tree.generate.reachable with
      | ok marks =>
        rw [hr] at he
        cases he
      | error e' =>
        rw [hr] at he
        cases he
        rfl
    rw [Program.reachable_eq_search hentry] at hsearch
    -- jumps have their labels, so what stops the search is a call
    obtain ⟨k, hk, hsuccessors⟩ := Graph.reaches_of_search_start.2 e hsearch
    obtain ⟨name, rfl, hcall, hnone⟩ := htiles.successors_error hsuccessors
    refine ⟨k, name, rfl, ⟨low, hentry, hk⟩, hcall, ?_⟩
    rintro f hf rfl
    obtain ⟨start, stop, hf⟩ := htiles.spans hf
    cases hnone.symm.trans hf.label

/-- The function `pick(n) { while (n) { return n; } }`. -/
def pickFunction : Function :=
  ⟨"pick", ["n"], [.whileLoop (.place "n" [] ⟨1, 18⟩) [.ret (.place "n" [] ⟨1, 30⟩)]], ⟨1, 1⟩⟩

/-- A program that calls the function and then another one, which is not declared. -/
def pickTree : Tree :=
  ⟨[pickFunction, ⟨"main", [], [.call ⟨"pick", [.int 3], ⟨1, 46⟩⟩, .call ⟨"miss", [], ⟨1, 55⟩⟩], ⟨1, 37⟩⟩]⟩

set_option maxRecDepth 4000 in
/-- The first function has its `return` in a loop, and it ends with another one. -/
theorem Tree.compile_structured_missing :
    parse "pick(n) { while (n) { return n; } } main() { pick(3); miss(); }" = .ok pickTree ∧
    pickTree.compile = .ok pickTree.generate ∧ Tiles pickTree.generate 2 0 pickTree.functions 13 ∧
    pickTree.generate.prune = .error (.unresolvedLabel "miss" 11) ∧ pickTree.generate.Live 11 := by
  have hparse : parse "pick(n) { while (n) { return n; } } main() { pick(3); miss(); }" = .ok pickTree := by
    cbv
  have hcompile : pickTree.compile = .ok pickTree.generate := rfl
  have hprune : pickTree.generate.prune = .error (.unresolvedLabel "miss" 11) := by cbv
  obtain ⟨-, -, -, htiles, hmissing⟩ :=
    Tree.compile_structured hcompile fun f hf n _ => ne_generatedLabel_of_parse hparse f hf n
  obtain ⟨k, name, he, hlive, -⟩ := hmissing ⟨_, List.mem_cons_of_mem _ (List.mem_singleton_self _), rfl⟩ _ hprune
  cases he
  exact ⟨hparse, hcompile, htiles, hprune, hlive⟩

/-- A tree that no text has: a function with the name of a label, and a loop in the function behind it that leaves
for a label of that name. -/
def clashTree : Tree :=
  ⟨[⟨".L1", [], [.print (.int 7)], ⟨1, 1⟩⟩, ⟨"main", [], [.whileLoop (.int 0) []], ⟨2, 1⟩⟩]⟩

/-- The tree has code, but of the two labels with one name only the first is placed, so the loop leaves for the
other function. -/
theorem Tree.compile_structured_clash :
    clashTree.compile = .ok clashTree.generate ∧
    labelNames clashTree.lines = [".L1", "main", ".L0", ".L1"] ∧
    clashTree.generate.labels.entries = [(".L1", 0), ("main", 3), (".L0", 3)] ∧
    clashTree.generate.instructions[4]? = some ⟨.jz, [".L1"]⟩ ∧
    ¬ Tiles clashTree.generate (labelTotal clashTree.functions) 0 clashTree.functions clashTree.generate.size := by
  have hjump : clashTree.generate.instructions[4]? = some ⟨.jz, [".L1"]⟩ := by decide
  have hbehind : clashTree.generate.labels.get? "main" = some 3 := by decide
  have hfirst : clashTree.generate.labels.get? ".L1" = some 0 := by decide
  refine ⟨rfl, by decide, by decide, hjump, ?_⟩
  rintro ⟨low, -, high, hmain, hend⟩
  obtain rfl : 3 = low := Option.some.inj (hbehind.symm.trans hmain.label)
  obtain rfl : high = 7 := hend
  obtain ⟨i, hi, hholds⟩ := hmain.code 4 (by decide) (by decide)
  obtain rfl := Option.some.inj (hjump.symm.trans hi)
  obtain ⟨number, -, hargs, target, htarget, hinside, -⟩ := hholds.jump (.inl rfl)
  rw [← List.head_eq_of_cons_eq hargs] at htarget
  obtain rfl : 0 = target := Option.some.inj (hfirst.symm.trans htarget)
  exact absurd hinside (by decide)

end CMinusMinus
