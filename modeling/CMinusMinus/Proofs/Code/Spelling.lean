import CMinusMinus.Proofs.Code.Emission
import CMinusMinus.Proofs.Code.Writing

/-!
# Generated code can be written

The arguments of generated code are identifiers, numerals, counts and generated labels. None of their
characters has a meaning of its own for the reader of programs, so no argument is taken for anything else.
-/

namespace CMinusMinus

open Text

/-! ## Plain arguments -/

/-- A character that has no meaning of its own for the reader of programs. -/
def isPlain (c : Char) : Bool :=
  c.isAlphanum || c == '_' || c == '-' || c == '.'

/-- One character or more, and plain ones only. -/
structure Plain (text : String) : Prop where
  ne_nil : text.toList ≠ []
  plain : ∀ c ∈ text.toList, isPlain c = true

theorem toNat_of_isPlain {c : Char} (h : isPlain c = true) :
    45 ≤ c.toNat ∧ c.toNat ≤ 122 ∧ c.toNat ≠ 47 ∧ c.toNat ≠ 58 := by
  simp only [isPlain, Char.isAlphanum, Char.isAlpha, Char.isUpper, Char.isLower, Char.isDigit,
    Bool.or_eq_true, Bool.and_eq_true, decide_eq_true_eq, ge_iff_le, UInt32.le_iff_toNat_le,
    beq_iff_eq] at h
  rcases h with (((h | h) | rfl) | rfl) | rfl
  · simp only [Char.toNat_val, Char.reduceVal, UInt32.reduceToNat] at h
    omega
  · simp only [Char.toNat_val, Char.reduceVal, UInt32.reduceToNat] at h
    omega
  all_goals decide

theorem isBlank_of_isPlain {c : Char} (h : isPlain c = true) : isBlank c = false := by
  have hc := toNat_of_isPlain h
  simp only [isBlank, blankRanges, List.any_cons, List.any_nil, Bool.or_eq_false_iff, Bool.and_eq_false_imp,
    decide_eq_true_eq, decide_eq_false_iff_not, and_true]
  and_intros <;> omega

theorem plain_of_isIdentifier {name : String} (h : isIdentifier name = true) : Plain name := by
  unfold isIdentifier at h
  split at h
  · cases h
  · rename_i c cs hname
    rw [Bool.and_eq_true, List.all_eq_true] at h
    refine ⟨by simp [hname], ?_⟩
    rw [hname, List.forall_mem_cons]
    have hrest : ∀ d, isIdentifierRest d = true → isPlain d = true := by
      intro d hd
      rw [isIdentifierRest] at hd
      simp [isPlain, hd]
    refine ⟨hrest c ?_, fun d hd => hrest d (h.2 d hd)⟩
    have hstart := h.1
    simp only [isIdentifierStart, Bool.or_eq_true] at hstart
    simp only [isIdentifierRest, Char.isAlphanum, Bool.or_eq_true]
    rcases hstart with halpha | hscore
    · exact .inl (.inl halpha)
    · exact .inr hscore

theorem isPlain_of_mem_toDigits {n : Nat} {c : Char} (h : c ∈ Nat.toDigits 10 n) : isPlain c = true := by
  have hdigit := Nat.isDigit_of_mem_toDigits (by decide) (by decide) h
  simp [isPlain, Char.isAlphanum, hdigit]

theorem plain_repr (n : Nat) : Plain n.repr := by
  refine ⟨?_, ?_⟩
  · rw [Nat.toList_repr]
    intro hnil
    have hdigits := isDigits_toDigits n
    rw [hnil] at hdigits
    cases hdigits
  · rw [Nat.toList_repr]
    exact fun c hc => isPlain_of_mem_toDigits hc

theorem plain_numeral (value : Int) : Plain (numeral value) := by
  cases value with
  | ofNat n => exact plain_repr n
  | negSucc n =>
    have htext : (numeral (.negSucc n)).toList = '-' :: Nat.toDigits 10 (n + 1) := by
      simp [numeral, Int.repr, Nat.toList_repr]
    refine ⟨by simp [htext], ?_⟩
    rw [htext, List.forall_mem_cons]
    exact ⟨rfl, fun c hc => isPlain_of_mem_toDigits hc⟩

theorem plain_generatedLabel (number : Nat) : Plain (generatedLabel number) := by
  have htext : (generatedLabel number).toList = '.' :: 'L' :: Nat.toDigits 10 number := by
    simp [generatedLabel, String.toList_append, Nat.toList_repr]
  refine ⟨by simp [htext], ?_⟩
  rw [htext, List.forall_mem_cons, List.forall_mem_cons]
  exact ⟨rfl, rfl, fun c hc => isPlain_of_mem_toDigits hc⟩

namespace Plain

variable {text : String} (h : Plain text)
include h

theorem isWord : IsWord text.toList :=
  ⟨h.ne_nil, fun c hc => isBlank_of_isPlain (h.plain c hc)⟩

theorem getLast?_ne : text.toList.getLast? ≠ some ':' := by
  intro hlast
  have := h.plain ':' (List.mem_of_getLast? hlast)
  exact absurd this (by decide)

theorem not_comment (after : List Char) : Program.Line.isComment (text.toList ++ after) = false := by
  cases hl : text.toList with
  | nil => exact absurd hl h.ne_nil
  | cons c cs =>
    have hc := toNat_of_isPlain (h.plain c (by simp [hl]))
    rw [List.cons_append]
    unfold Program.Line.isComment
    split
    · contradiction
    · rename_i heq
      obtain ⟨rfl, -⟩ := List.cons.inj heq
      exact absurd hc.1 (by decide)
    · rename_i heq
      obtain ⟨rfl, -⟩ := List.cons.inj heq
      exact absurd rfl hc.2.2.1
    · rfl

theorem writableLabel : WritableLabel text :=
  ⟨h.isWord, h.not_comment [':']⟩

end Plain

theorem writable_of_plain {i : Instruction} (hvalid : i.validate = .ok ())
    (h : ∀ arg ∈ i.args, Plain arg) : i.Writable :=
  ⟨hvalid, fun arg harg => (h arg harg).isWord,
    fun arg harg => (h arg (List.mem_of_getLast? harg)).getLast?_ne⟩

/-! ## Generated code -/

section Instructions

variable {name : String} (h : isIdentifier name = true)
include h

theorem writable_push : (Instruction.push name).Writable := by
  have hplain := plain_of_isIdentifier h
  refine writable_of_plain ?_ (by simpa [Instruction.push] using hplain)
  simp [Instruction.push, Instruction.validate, Opcode.accepts, Instruction.badArgument?, h]

theorem writable_bind : (Instruction.bind name).Writable := by
  have hplain := plain_of_isIdentifier h
  refine writable_of_plain ?_ (by simpa [Instruction.bind] using hplain)
  simp [Instruction.bind, Instruction.validate, Opcode.accepts, Instruction.badArgument?, h]

theorem writable_store : (Instruction.store name).Writable := by
  have hplain := plain_of_isIdentifier h
  have harr : Plain "arr" := plain_of_isIdentifier (by cbv)
  refine writable_of_plain ?_ (List.forall_mem_cons.2 ⟨harr, List.forall_mem_singleton.2 hplain⟩)
  simp [Instruction.store, Instruction.validate, Opcode.accepts, Instruction.badArgument?,
    Instruction.storeMarker, h]

/-- The instructions that have the name of an array as their argument. -/
theorem writable_ofArray (opcode : Opcode) (ho : opcode ∈ [.array, .access, .length]) :
    (Instruction.mk opcode [name]).Writable := by
  have hplain := plain_of_isIdentifier h
  refine writable_of_plain ?_ (by simpa using hplain)
  simp only [List.mem_cons, List.not_mem_nil, or_false] at ho
  rcases ho with rfl | rfl | rfl <;>
    simp [Instruction.validate, Opcode.accepts, Instruction.badArgument?, h]

end Instructions

theorem writable_pushNumeral (value : Int) : (Instruction.push (numeral value)).Writable := by
  have hplain := plain_numeral value
  refine writable_of_plain ?_ (by simpa [Instruction.push] using hplain)
  simp [Instruction.push, Instruction.validate, Opcode.accepts, Instruction.badArgument?,
    isNumeral_numeral]

theorem writable_ret {count : Nat} (h : count < countBound) : (Instruction.ret count).Writable := by
  refine writable_of_plain ?_ (by simpa [Instruction.ret] using plain_repr count)
  simp [Instruction.ret, Instruction.validate, Opcode.accepts, Instruction.badArgument?, readCount?_repr h]

/-- The instructions that have the name of a label as their argument. -/
theorem writable_ofLabel {label : String} (h : Plain label) (opcode : Opcode)
    (ho : opcode ∈ [.jz, .jmp, .call]) : (Instruction.mk opcode [label]).Writable := by
  refine writable_of_plain ?_ (by simpa using h)
  simp only [List.mem_cons, List.not_mem_nil, or_false] at ho
  rcases ho with rfl | rfl | rfl <;> simp [Instruction.validate, Opcode.accepts, Instruction.badArgument?]

theorem Instruction.Emitted.writable {left low high : Nat} {i : Instruction}
    (h : i.Emitted (isIdentifier · = true) left low high) (hleft : left ≤ 1) : i.Writable := by
  cases h with
  | numeral value => exact writable_pushNumeral value
  | push h => exact writable_push h
  | bind h => exact writable_bind h
  | store h => exact writable_store h
  | drop => exact writable_of_plain rfl (by simp [Instruction.drop])
  | ofArray ho h => exact writable_ofArray h _ ho
  | neg | binary op | print => exact writable_of_plain rfl (by simp)
  | call h hl => exact writable_ofLabel (plain_of_isIdentifier h) .call (by decide)
  | jump ho hl hh => exact writable_ofLabel (plain_generatedLabel _) _ (List.mem_append_left [Opcode.call] ho)
  | ret => exact writable_ret (Nat.lt_of_le_of_lt hleft (by decide))

theorem writable_functionLines (yields : Yields) (next : Nat) {functions : List Function}
    (h : ∀ f ∈ functions, Names (isIdentifier · = true) f.names) :
    ∀ line ∈ functionLines yields next functions, line.Writable := by
  rintro (name | i) hline
  · have hplain : Plain name := by
      have hname : name ∈ labelNames (functionLines yields next functions) :=
        List.mem_filterMap.2 ⟨_, hline, rfl⟩
      rcases List.mem_append.1 ((labelNames_functionLines ..).mem_iff.1 hname) with hname | hname
      · obtain ⟨f, hf, rfl⟩ := List.mem_map.1 hname
        exact plain_of_isIdentifier (List.forall_mem_cons.1 (h f hf)).1
      · obtain ⟨n, -, -, rfl⟩ := mem_generatedLabels.1 hname
        exact plain_generatedLabel n
    exact hplain.writableLabel
  · obtain ⟨left, hleft, low, high, hi⟩ := emitted_functionLines yields h hline
    exact hi.writable hleft

/-- Where a source text declares the entry, its program is one that is read back. -/
theorem writable_of_compile {source : String} {tree : Tree} {p : Program} (hparse : parse source = .ok tree)
    (hcompile : tree.compile = .ok p) (hmain : ∃ f ∈ tree.functions, f.name = Program.entryName) :
    p.Writable ∧ p.entry?.isSome = true := by
  have hnames : ∀ f ∈ tree.functions, Names (isIdentifier · = true) f.names :=
    fun f hf name hname => isIdentifier_of_parse hparse name (List.mem_flatMap.2 ⟨f, hf, hname⟩)
  obtain ⟨hcheck, rfl⟩ := Tree.compile_eq_ok hcompile
  obtain ⟨hnodup, -⟩ := Tree.check_ok hcheck
  have hlaid := laidOut_generate hnodup fun f hf => (List.forall_mem_cons.1 (hnames f hf)).1
  obtain ⟨f, hf, hname⟩ := hmain
  obtain ⟨k, next, rest, hlocated⟩ := hlaid.declared f hf
  have hentry : tree.generate.entry? = some k := by
    unfold Program.entry?
    rw [← hname]
    exact hlocated.1
  refine ⟨Program.writable_empty.foldl_push (writable_functionLines tree.yields 0 hnames), ?_⟩
  rw [hentry]
  rfl

end CMinusMinus
