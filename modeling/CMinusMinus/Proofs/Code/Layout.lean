import CMinusMinus.Code.Generation
import CMinusMinus.Proofs.Source.Conditions
import CMinusMinus.Proofs.Text.Numeral

/-!
# Where lines stand in a program

Lines stand at a position of a program if their instructions follow each other from there on and their labels
name the places between them. A program has its own lines at its start, if no label occurs twice, and the
labels of generated code are different: the names of functions are identifiers, and numbers are used once.
-/

namespace CMinusMinus

/-! ## Labels of lines -/

theorem Labels.get?_define (labels : Labels) (name name' : String) (position : Nat) :
    (labels.define name position).get? name' =
      (labels.get? name').or (if name' = name then some position else none) := by
  unfold define
  split
  · rename_i hnone
    show (labels.entries ++ [(name, position)]).lookup name' = _
    rw [List.lookup_append]
    congr 1
    rw [List.lookup_cons, List.lookup_nil]
    by_cases he : name' = name
    · simp [he]
    · rw [beq_eq_false_iff_ne.2 he, if_neg he]
  · rename_i hsome
    by_cases he : name' = name
    · subst he
      cases hg : labels.get? name' with
      | none => exact absurd hg hsome
      | some k => rfl
    · rw [if_neg he, Option.or_none]

/-- The labels among lines. -/
def labelNames (lines : List Program.Line) : List String :=
  lines.filterMap fun
    | .label name => some name
    | .instruction _ => none

theorem labelNames_append (a b : List Program.Line) :
    labelNames (a ++ b) = labelNames a ++ labelNames b :=
  List.filterMap_append

theorem labelNames_instructionLines (code : List Instruction) (rest : List Program.Line) :
    labelNames (instructionLines code rest) = labelNames rest := by
  induction code with
  | nil => rfl
  | cons i code ih => exact ih

namespace Program

/-! ## Lines at a position -/

/-- Lines stand at a position of a program. -/
def Located (p : Program) (k : Nat) : List Line → Prop
  | [] => True
  | .label name :: rest => p.labels.get? name = some k ∧ p.Located k rest
  | .instruction i :: rest => p.instructions[k]? = some i ∧ p.Located (k + 1) rest

theorem Located.exists_right {p : Program} {k : Nat} {a b : List Line} (h : p.Located k (a ++ b)) :
    ∃ l, p.Located l b := by
  induction a generalizing k with
  | nil => exact ⟨k, h⟩
  | cons line a ih =>
    cases line with
    | label name => exact ih h.2
    | instruction i => exact ih h.2

theorem Located.instructionLines {p : Program} {k : Nat} {code : List Instruction} {rest : List Line}
    (h : p.Located k (instructionLines code rest)) : ∃ l, p.Located l rest :=
  h.exists_right

/-! ## Programs of lines -/

section Fold

variable (p : Program) (lines : List Line)

theorem getElem?_foldl_push {k : Nat} {i : Instruction} (h : p.instructions[k]? = some i) :
    (lines.foldl push p).instructions[k]? = some i := by
  induction lines generalizing p with
  | nil => exact h
  | cons line lines ih =>
    refine ih _ ?_
    cases line with
    | label name => exact h
    | instruction j =>
      have hk := (Array.getElem?_eq_some_iff.1 h).1
      show (p.instructions.push j)[k]? = some i
      rw [Array.getElem?_push, if_neg (Nat.ne_of_lt hk), h]

theorem get?_foldl_push {name : String} {k : Nat} (h : p.labels.get? name = some k) :
    (lines.foldl push p).labels.get? name = some k := by
  induction lines generalizing p with
  | nil => exact h
  | cons line lines ih =>
    refine ih _ ?_
    cases line with
    | label name' =>
      show (p.labels.define name' p.size).get? name = some k
      rw [Labels.get?_define, h]
      rfl
    | instruction j => exact h

theorem get?_foldl_push_none {name : String} (h : p.labels.get? name = none)
    (hn : name ∉ labelNames lines) : (lines.foldl push p).labels.get? name = none := by
  induction lines generalizing p with
  | nil => exact h
  | cons line lines ih =>
    cases line with
    | label name' =>
      have hne : name ≠ name' := fun he => hn (he ▸ List.mem_cons_self ..)
      refine ih _ ?_ fun hm => hn (List.mem_cons_of_mem _ hm)
      show (p.labels.define name' p.size).get? name = none
      rw [Labels.get?_define, h, if_neg hne]
      rfl
    | instruction j => exact ih _ h hn

theorem located_foldl_push (hn : (labelNames lines).Nodup)
    (hp : ∀ name ∈ labelNames lines, p.labels.get? name = none) :
    (lines.foldl push p).Located p.size lines := by
  induction lines generalizing p with
  | nil => trivial
  | cons line lines ih =>
    cases line with
    | label name =>
      obtain ⟨hname, hn⟩ := List.nodup_cons.1 hn
      have hnone := hp name (List.mem_cons_self ..)
      refine ⟨get?_foldl_push _ lines ?_, ih _ hn fun name' hm => ?_⟩
      · show (p.labels.define name p.size).get? name = some p.size
        rw [Labels.get?_define, hnone, if_pos rfl]
        rfl
      · have hne : name' ≠ name := fun he => hname (he ▸ hm)
        show (p.labels.define name p.size).get? name' = none
        rw [Labels.get?_define, hp name' (List.mem_cons_of_mem _ hm), if_neg hne]
        rfl
    | instruction i =>
      have hpush : (p.push (.instruction i)).instructions[p.size]? = some i := Array.getElem?_push_size
      refine ⟨getElem?_foldl_push _ lines hpush, ?_⟩
      have hsize : (p.push (.instruction i)).size = p.size + 1 := Array.size_push _
      have := ih (p.push (.instruction i)) hn hp
      rw [hsize] at this
      exact this

end Fold

/-- A program has its lines at its start. -/
theorem located_ofLines {lines : List Line} (hn : (labelNames lines).Nodup) :
    (ofLines lines).Located 0 lines :=
  located_foldl_push empty lines hn fun _ _ => rfl

theorem get?_ofLines_none {lines : List Line} {name : String} (hn : name ∉ labelNames lines) :
    (ofLines lines).labels.get? name = none :=
  get?_foldl_push_none empty lines rfl hn

end Program

/-! ## Generated labels -/

theorem generatedLabel_injective {m n : Nat} (h : generatedLabel m = generatedLabel n) : m = n := by
  unfold generatedLabel at h
  have hrepr : m.repr = n.repr := (String.append_right_inj _).1 h
  have := congrArg Text.readInt? hrepr
  rw [Text.readInt?_repr, Text.readInt?_repr] at this
  exact Int.ofNat.inj (Option.some.inj this)

theorem generatedLabel_ne {name : String} (h : Text.isIdentifier name = true) (n : Nat) :
    name ≠ generatedLabel n := by
  rintro rfl
  have hchars : (generatedLabel n).toList = '.' :: 'L' :: n.repr.toList := by
    rw [generatedLabel, String.toList_append]
    rfl
  rw [Text.isIdentifier, hchars] at h
  simp [Text.isIdentifierStart] at h

/-- The generated labels with `count` numbers from `low` on. -/
def generatedLabels (low count : Nat) : List String :=
  (List.range' low count).map generatedLabel

theorem generatedLabels_append (low m n : Nat) :
    generatedLabels low m ++ generatedLabels (low + m) n = generatedLabels low (m + n) := by
  rw [generatedLabels, generatedLabels, ← List.map_append, List.range'_append_1, generatedLabels]

theorem mem_generatedLabels {low count : Nat} {name : String} :
    name ∈ generatedLabels low count ↔ ∃ n, low ≤ n ∧ n < low + count ∧ name = generatedLabel n := by
  simp only [generatedLabels, List.mem_map, List.mem_range'_1, and_assoc, eq_comm]

theorem nodup_generatedLabels (low count : Nat) : (generatedLabels low count).Nodup :=
  List.pairwise_map.2 <| (List.nodup_range' 1).imp fun hne he => hne (generatedLabel_injective he)

/-- All generated labels with numbers from `low` up to `high`, in any order. -/
def Numbered (low high : Nat) (names : List String) : Prop :=
  names.Perm (generatedLabels low (high - low))

section Numbered

variable {a b c : Nat} {xs ys : List String}

theorem numbered_nil (a : Nat) : Numbered a a [] := by
  rw [Numbered, Nat.sub_self]
  exact .nil

theorem Numbered.mem_iff (h : Numbered a b xs) {name : String} :
    name ∈ xs ↔ ∃ n, a ≤ n ∧ n < b ∧ name = generatedLabel n := by
  rw [Numbered] at h
  rw [h.mem_iff, mem_generatedLabels]
  refine exists_congr fun n => ?_
  constructor
  · rintro ⟨hl, hh, rfl⟩
    exact ⟨hl, by omega, rfl⟩
  · rintro ⟨hl, hh, rfl⟩
    exact ⟨hl, by omega, rfl⟩

theorem Numbered.perm (h : Numbered a b xs) (hp : xs.Perm ys) : Numbered a b ys :=
  hp.symm.trans h

theorem Numbered.append (h : Numbered a b xs) (h' : Numbered b c ys) (hab : a ≤ b) (hbc : b ≤ c) :
    Numbered a c (xs ++ ys) := by
  refine (List.Perm.append h h').trans ?_
  have happend := generatedLabels_append a (b - a) (c - b)
  rw [show a + (b - a) = b by omega, show b - a + (c - b) = c - a by omega] at happend
  rw [happend]

/-- Two more labels, with the numbers below the others. -/
theorem Numbered.pair (h : Numbered (a + 2) b xs) (hab : a + 2 ≤ b) :
    Numbered a b (generatedLabel a :: generatedLabel (a + 1) :: xs) := by
  have hpair : Numbered a (a + 2) [generatedLabel a, generatedLabel (a + 1)] := by
    rw [Numbered, Nat.add_sub_cancel_left]
    exact .refl _
  exact hpair.append h (by omega) hab

end Numbered

/-! ## Code of expressions -/

mutual

theorem Expr.code_append (e : Expr) (rest more : List Instruction) :
    e.code (rest ++ more) = e.code rest ++ more := by
  match e with
  | .int value | .place name [] loc => rfl
  | .place name (index :: indices) loc => exact Expr.code_append index (⟨.access, [name]⟩ :: rest) more
  | .call name args loc =>
    simp only [Expr.code]
    split
    · unfold lengthCode
      split <;> rfl
    · exact Expr.argsCode_append args (⟨.call, [name]⟩ :: rest) more
  | .neg operand => exact Expr.code_append operand (⟨.neg, []⟩ :: rest) more
  | .binary op lhs rhs => simp only [Expr.code, ← Expr.code_append, List.cons_append]

theorem Expr.argsCode_append (args : List Expr) (rest more : List Instruction) :
    Expr.argsCode args (rest ++ more) = Expr.argsCode args rest ++ more := by
  match args with
  | [] => rfl
  | arg :: args => simp only [Expr.argsCode, ← Expr.code_append, ← Expr.argsCode_append]

end

theorem Expr.code_eq (e : Expr) (rest : List Instruction) : e.code rest = e.code [] ++ rest :=
  e.code_append [] rest

theorem Expr.argsCode_eq (args : List Expr) (rest : List Instruction) :
    Expr.argsCode args rest = Expr.argsCode args [] ++ rest :=
  Expr.argsCode_append args [] rest

/-! ## Lines of statements -/

section Lines

variable (yields : Yields)

theorem instructionLines_append (code : List Instruction) (rest more : List Program.Line) :
    instructionLines code (rest ++ more) = instructionLines code rest ++ more :=
  (List.append_assoc ..).symm

theorem instructionLines_append_code (xs ys : List Instruction) (rest : List Program.Line) :
    instructionLines (xs ++ ys) rest = instructionLines xs (instructionLines ys rest) := by
  simp only [instructionLines, List.map_append, List.append_assoc]

theorem loopLines_append (next : Nat) (condition : Expr) {body : List Program.Line → List Program.Line}
    (hb : ∀ rest more, body (rest ++ more) = body rest ++ more) (step : List Instruction)
    (rest more : List Program.Line) :
    loopLines next condition body step (rest ++ more) =
      loopLines next condition body step rest ++ more := by
  simp only [loopLines, List.cons_append, ← instructionLines_append, ← hb]

mutual

theorem Stmt.lines_append (next : Nat) (stmt : Stmt) (rest more : List Program.Line) :
    stmt.lines yields next (rest ++ more) = stmt.lines yields next rest ++ more := by
  match stmt with
  | .print value | .ret value | .assign a | .array name size | .call c =>
    simp only [Stmt.lines, instructionLines_append]
  | .whileLoop condition body =>
    simp only [Stmt.lines]
    exact loopLines_append next condition (Stmt.allLines_append (next + 2) body) [] rest more
  | .forLoop init condition step body =>
    simp only [Stmt.lines, ← instructionLines_append]
    rw [loopLines_append next condition (Stmt.allLines_append (next + 2) body)]
  | .branch condition yes no =>
    simp only [Stmt.lines, ← instructionLines_append, ← Stmt.allLines_append, ← Stmt.elseLines_append,
      List.cons_append]
  | .block body =>
    simp only [Stmt.lines]
    exact Stmt.allLines_append next body rest more

theorem Stmt.allLines_append (next : Nat) (body : List Stmt) (rest more : List Program.Line) :
    Stmt.allLines yields next body (rest ++ more) = Stmt.allLines yields next body rest ++ more := by
  match body with
  | [] => rfl
  | stmt :: body => simp only [Stmt.allLines, ← Stmt.lines_append, ← Stmt.allLines_append]

theorem Stmt.elseLines_append (otherwise next : Nat) (no : Option (List Stmt))
    (rest more : List Program.Line) :
    Stmt.elseLines yields otherwise next no (rest ++ more) =
      Stmt.elseLines yields otherwise next no rest ++ more := by
  match no with
  | none => rfl
  | some body => simp only [Stmt.elseLines, Stmt.allLines_append, List.cons_append]

end

theorem labelNames_lines (next : Nat) (stmt : Stmt) (rest : List Program.Line) :
    labelNames (stmt.lines yields next rest) =
      labelNames (stmt.lines yields next []) ++ labelNames rest := by
  rw [← labelNames_append, ← Stmt.lines_append, List.nil_append]

theorem labelNames_allLines (next : Nat) (body : List Stmt) (rest : List Program.Line) :
    labelNames (Stmt.allLines yields next body rest) =
      labelNames (Stmt.allLines yields next body []) ++ labelNames rest := by
  rw [← labelNames_append, ← Stmt.allLines_append, List.nil_append]

theorem labelNames_loopLines (next : Nat) (condition : Expr) (body : List Stmt)
    (step : List Instruction) :
    labelNames (loopLines next condition (Stmt.allLines yields (next + 2) body) step []) =
      generatedLabel next :: (labelNames (Stmt.allLines yields (next + 2) body []) ++
        [generatedLabel (next + 1)]) := by
  show generatedLabel next :: labelNames (instructionLines _ _) = _
  rw [labelNames_instructionLines, labelNames_allLines, labelNames_instructionLines]
  rfl

/-- Two labels stand between and behind others. -/
theorem Numbered.enclose {next high : Nat} {xs ys : List String} (h : Numbered (next + 2) high (xs ++ ys))
    (hl : next + 2 ≤ high) :
    Numbered next high (xs ++ generatedLabel next :: (ys ++ [generatedLabel (next + 1)])) := by
  refine (h.pair hl).perm (((List.perm_append_singleton _ _).symm.cons _).trans ?_)
  rw [List.append_assoc]
  exact List.perm_middle.symm

mutual

/-- The labels of a statement are generated, with the numbers that it uses. -/
theorem Stmt.numbered_lines (next : Nat) (stmt : Stmt) :
    Numbered next (next + stmt.labelCount) (labelNames (stmt.lines yields next [])) := by
  match stmt with
  | .print value | .ret value | .assign a | .array name size | .call c =>
    simp only [Stmt.lines, labelNames_instructionLines]
    exact numbered_nil next
  | .whileLoop condition body =>
    simp only [Stmt.lines, Stmt.labelCount, labelNames_loopLines, ← Nat.add_assoc]
    exact @Numbered.enclose _ _ [] _ (Stmt.numbered_allLines (next + 2) body) (by omega)
  | .forLoop init condition step body =>
    simp only [Stmt.lines, Stmt.labelCount, labelNames_instructionLines, labelNames_loopLines,
      ← Nat.add_assoc]
    exact @Numbered.enclose _ _ [] _ (Stmt.numbered_allLines (next + 2) body) (by omega)
  | .branch condition yes no =>
    simp only [Stmt.lines, Stmt.labelCount, labelNames_instructionLines, ← Nat.add_assoc]
    rw [labelNames_allLines]
    obtain ⟨names, hn, hp⟩ :=
      Stmt.numbered_elseLines next (next + 2 + Stmt.labelCounts yes) no
    rw [hp]
    exact ((Stmt.numbered_allLines (next + 2) yes).append hn (by omega) (by omega)).enclose (by omega)
  | .block body =>
    simp only [Stmt.lines, Stmt.labelCount]
    exact Stmt.numbered_allLines next body

theorem Stmt.numbered_allLines (next : Nat) (body : List Stmt) :
    Numbered next (next + Stmt.labelCounts body) (labelNames (Stmt.allLines yields next body [])) := by
  match body with
  | [] => exact numbered_nil next
  | stmt :: body =>
    simp only [Stmt.allLines, Stmt.labelCounts]
    rw [labelNames_lines, ← Nat.add_assoc]
    exact (Stmt.numbered_lines next stmt).append (Stmt.numbered_allLines _ body) (by omega) (by omega)

/-- Besides the two labels of a conditional, the labels of its else block have the numbers that it uses. -/
theorem Stmt.numbered_elseLines (otherwise next : Nat) (no : Option (List Stmt)) :
    ∃ names, Numbered next (next + Stmt.labelCountOption no) names ∧
      labelNames (Stmt.elseLines yields otherwise next no [.label (generatedLabel (otherwise + 1))]) =
        generatedLabel otherwise :: (names ++ [generatedLabel (otherwise + 1)]) := by
  match no with
  | none => exact ⟨[], numbered_nil next, rfl⟩
  | some body =>
    refine ⟨_, Stmt.numbered_allLines next body, ?_⟩
    show generatedLabel otherwise :: labelNames (Stmt.allLines yields next body _) = _
    rw [labelNames_allLines]
    rfl

end

/-! ## Lines of functions -/

theorem Function.lines_append (next : Nat) (f : Function) (rest more : List Program.Line) :
    f.lines yields next (rest ++ more) = f.lines yields next rest ++ more := by
  simp only [Function.lines, ← instructionLines_append, ← Stmt.allLines_append, List.cons_append]

theorem labelNames_functionLine (next : Nat) (f : Function) (rest : List Program.Line) :
    labelNames (f.lines yields next rest) =
      f.name :: (labelNames (Stmt.allLines yields next f.body []) ++ labelNames rest) := by
  show f.name :: labelNames (instructionLines _ _) = _
  rw [labelNames_instructionLines, labelNames_allLines, labelNames_instructionLines]

/-- How many labels the code of functions uses. -/
def labelTotal : List Function → Nat
  | [] => 0
  | f :: functions => Stmt.labelCounts f.body + labelTotal functions

/-- The labels of functions are their names and generated ones. -/
theorem labelNames_functionLines (next : Nat) (functions : List Function) :
    (labelNames (functionLines yields next functions)).Perm
      (functions.map Function.name ++ generatedLabels next (labelTotal functions)) := by
  induction functions generalizing next with
  | nil => exact .nil
  | cons f functions ih =>
    have hbody := Stmt.numbered_allLines yields next f.body
    rw [Numbered, Nat.add_sub_cancel_left] at hbody
    rw [functionLines, labelNames_functionLine, List.map_cons, List.cons_append]
    refine List.Perm.cons _ ((hbody.append (ih _)).trans ?_)
    rw [labelTotal, ← generatedLabels_append, ← List.append_assoc, ← List.append_assoc]
    exact List.perm_append_comm.append_right _

/-- No label of functions occurs twice if and only if no function has the name of another one, or of a label that
is generated. -/
theorem nodup_functionLines_iff (next : Nat) {functions : List Function} :
    (labelNames (functionLines yields next functions)).Nodup ↔ (functions.map Function.name).Nodup ∧
      ∀ f ∈ functions, ∀ n, next ≤ n → n < next + labelTotal functions → f.name ≠ generatedLabel n := by
  rw [(labelNames_functionLines yields next functions).nodup_iff, List.nodup_append]
  constructor
  · rintro ⟨hn, -, hdisjoint⟩
    refine ⟨hn, fun f hf n hl hh => ?_⟩
    exact hdisjoint f.name (List.mem_map_of_mem hf) _ (mem_generatedLabels.2 ⟨n, hl, hh, rfl⟩)
  · rintro ⟨hn, hi⟩
    refine ⟨hn, nodup_generatedLabels .., ?_⟩
    rintro name hname _ hlabel rfl
    obtain ⟨f, hf, rfl⟩ := List.mem_map.1 hname
    obtain ⟨n, hl, hh, he⟩ := mem_generatedLabels.1 hlabel
    exact hi f hf n hl hh he

theorem nodup_functionLines (next : Nat) {functions : List Function}
    (hn : (functions.map Function.name).Nodup)
    (hi : ∀ f ∈ functions, ∀ n, f.name ≠ generatedLabel n) :
    (labelNames (functionLines yields next functions)).Nodup :=
  (nodup_functionLines_iff yields next).2 ⟨hn, fun f hf n _ _ => hi f hf n⟩

theorem exists_located {p : Program} {k next : Nat} {functions : List Function}
    (h : p.Located k (functionLines yields next functions)) {f : Function} (hf : f ∈ functions) :
    ∃ k next rest, p.Located k (f.lines yields next rest) := by
  induction functions generalizing k next with
  | nil => simp at hf
  | cons g functions ih =>
    rcases List.mem_cons.1 hf with rfl | hf
    · exact ⟨k, next, _, h⟩
    · have hrest : p.Located k (g.lines yields next [] ++
          functionLines yields (next + Stmt.labelCounts g.body) functions) := by
        rw [← Function.lines_append]
        exact h
      obtain ⟨l, hl⟩ := hrest.exists_right
      exact ih hl hf

end Lines

/-! ## Programs of trees -/

theorem lookup_yields (tree : Tree) (name : String) :
    tree.yields.lookup name = (tree.function? name).map Function.yields := by
  unfold Tree.yields Tree.function?
  induction tree.functions with
  | nil => rfl
  | cons f functions ih =>
    rw [List.map_cons, List.lookup_cons, List.find?_cons]
    by_cases he : name = f.name
    · subst he
      simp
    · have hne : (name == f.name) = false := beq_eq_false_iff_ne.2 he
      rw [hne]
      simpa [Ne.symm he] using ih

/-- Where a program has the code of a tree: at the label of each function, and no other identifier is a
label. -/
structure Tree.LaidOut (tree : Tree) (p : Program) : Prop where
  declared : ∀ f ∈ tree.functions, ∃ k next rest, p.Located k (f.lines tree.yields next rest)
  undeclared : ∀ name, Text.isIdentifier name = true → tree.function? name = none →
    p.labels.get? name = none

theorem laidOut_generate {tree : Tree} (hn : (tree.functions.map Function.name).Nodup)
    (hi : ∀ f ∈ tree.functions, Text.isIdentifier f.name = true) : tree.LaidOut tree.generate := by
  have hnodup := nodup_functionLines tree.yields 0 hn fun f hf => generatedLabel_ne (hi f hf)
  refine ⟨fun f hf => exists_located _ (Program.located_ofLines hnodup) hf, fun name hname hnone => ?_⟩
  refine Program.get?_ofLines_none fun hm => ?_
  rcases List.mem_append.1 ((labelNames_functionLines ..).mem_iff.1 hm) with hm | hm
  · obtain ⟨f, hf, rfl⟩ := List.mem_map.1 hm
    have := List.find?_eq_none.1 hnone f hf
    simp at this
  · obtain ⟨n, -, -, he⟩ := mem_generatedLabels.1 hm
    exact generatedLabel_ne hname n he

theorem Tree.compile_eq_ok {tree : Tree} {p : Program} (h : tree.compile = .ok p) :
    tree.check = .ok () ∧ p = tree.generate := by
  obtain ⟨_, hcheck, h⟩ := bind_eq_ok h
  cases h
  exact ⟨hcheck, rfl⟩

end CMinusMinus
