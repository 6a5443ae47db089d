import CMinusMinus.Optimizer.Folding
import CMinusMinus.Proofs.Optimizer.Survivors
import CMinusMinus.Proofs.Text.Numeral
import Mathlib.Tactic.Common

/-!
# What folding puts together

Every instruction that a folding pass keeps stands for a group of old instructions, and the groups follow
each other without gaps. A group is one instruction that is kept as it is, or code that computes the
constant which is pushed in its place; no label points into a group behind its first instruction.
-/

namespace CMinusMinus

/-! ## Groups -/

/-- Straight code that leaves a constant on the stack and does nothing else. -/
inductive Computes : List Instruction → Int → Prop where
  | push {arg : String} {value : Int} (h : Text.readInt? arg = some value) :
    Computes [⟨.push, [arg]⟩] value
  | binary {op : BinaryOp} {lhs rhs : List Instruction} {a b value : Int} (hl : Computes lhs a)
      (hr : Computes rhs b) (h : op.apply a b = .ok value) :
    Computes (lhs ++ rhs ++ [⟨.binary op, []⟩]) value
  | neg {operand : List Instruction} {value : Int} (h : Computes operand value) :
    Computes (operand ++ [⟨.neg, []⟩]) (-value)

theorem Computes.ne_nil {code : List Instruction} {value : Int} (h : Computes code value) : code ≠ [] := by
  cases h <;> simp

/-- An instruction may stand for a group: it is the group, or pushes what the group computes. -/
inductive Replaces : Instruction → List Instruction → Prop where
  | same (i : Instruction) : Replaces i [i]
  | constant {code : List Instruction} {value : Int} (h : Computes code value) :
    Replaces ⟨.push, [Text.numeral value]⟩ code

namespace Program

/-- The instructions from one position up to another. -/
def segment (p : Program) (start stop : Nat) : List Instruction :=
  (p.instructions.toList.drop start).take (stop - start)

theorem segment_append (p : Program) {a b c : Nat} (hab : a ≤ b) (hbc : b ≤ c) :
    p.segment a b ++ p.segment b c = p.segment a c := by
  unfold segment
  have hb : p.instructions.toList.drop b = (p.instructions.toList.drop a).drop (b - a) := by
    rw [List.drop_drop]
    congr 1
    omega
  rw [hb, ← List.take_add]
  congr 1
  omega

theorem length_segment (p : Program) {a b : Nat} (hb : b ≤ p.size) : (p.segment a b).length = b - a := by
  rw [segment, List.length_take, List.length_drop, Array.length_toList]
  exact Nat.min_eq_left (Nat.sub_le_sub_right hb a)

theorem segment_ne_nil (p : Program) {a b : Nat} (hab : a < b) (hb : b ≤ p.size) : p.segment a b ≠ [] := by
  refine List.ne_nil_of_length_pos ?_
  rw [p.length_segment hb]
  exact Nat.sub_pos_of_lt hab

theorem segment_succ {p : Program} {k : Nat} {i : Instruction} (hi : p.instructions[k]? = some i) :
    p.segment k (k + 1) = [i] := by
  have hk : p.instructions.toList[k]? = some i := by simpa using hi
  obtain ⟨hl, hk⟩ := List.getElem?_eq_some_iff.1 hk
  unfold segment
  rw [List.drop_eq_getElem_cons hl, hk, Nat.add_sub_cancel_left]
  rfl

end Program

/-- Where the group of a kept instruction starts: behind the origin of the one before it. -/
def startOf (kept : List Survivor) : Nat → Nat
  | 0 => 0
  | j + 1 => (kept[j]?.map (·.origin + 1)).getD 0

/-- The first `n` instructions of a program are divided into the groups of what is kept. -/
structure Grouped (p : Program) (kept : List Survivor) (n : Nat) : Prop where
  start_le : ∀ j s, kept[j]? = some s → startOf kept j ≤ s.origin
  replaces : ∀ j s, kept[j]? = some s →
    Replaces s.instruction (p.segment (startOf kept j) (s.origin + 1))
  unlabelled : ∀ j s, kept[j]? = some s → ∀ k, startOf kept j < k → k ≤ s.origin →
    p.labels.marks k = false
  stop : startOf kept kept.length = n

section Grouped

variable {p : Program} {kept : List Survivor} {n : Nat}

theorem startOf_succ {j : Nat} {s : Survivor} (hs : kept[j]? = some s) :
    startOf kept (j + 1) = s.origin + 1 := by
  simp only [startOf, hs, Option.map_some, Option.getD_some]

/-- A position moves to a survivor if it is behind the one before and not behind its origin. -/
theorem movedTo_eq_iff {kept : Array Survivor} (hr : Rising (kept.map (·.origin))) {j k : Nat}
    (hj : j < kept.size) :
    movedTo kept k = j ↔ startOf kept.toList j ≤ k ∧ k ≤ kept[j].origin := by
  have hlast := origin_lt_iff hr k hj
  have hfirst : startOf kept.toList j ≤ k ↔ j ≤ movedTo kept k := by
    cases j with
    | zero => simp [startOf]
    | succ j =>
      have := origin_lt_iff hr k (Nat.lt_of_succ_lt hj)
      rw [startOf_succ (s := kept[j]) (by simp [Nat.lt_of_succ_lt hj])]
      omega
  omega

/-- What comes after the first `length` kept instructions does not change where their groups start. -/
theorem startOf_extend {length : Nat} (hl : length ≤ kept.length) (s : Survivor) {j : Nat}
    (hj : j ≤ length) : startOf (kept.take length ++ [s]) j = startOf kept j := by
  cases j with
  | zero => rfl
  | succ j =>
    have hlt : j < (kept.take length).length := by
      rw [List.length_take]
      omega
    simp only [startOf]
    rw [List.getElem?_append_left hlt, List.getElem?_take_of_lt hj]

theorem Grouped.startOf_mono (hg : Grouped p kept n) {j l : Nat} (hjl : j ≤ l)
    (hl : l ≤ kept.length) : startOf kept j ≤ startOf kept l := by
  induction hjl with
  | refl => exact Nat.le_refl _
  | step hjl ih =>
    have hs := List.getElem?_eq_getElem hl
    have := hg.start_le _ _ hs
    have := ih (Nat.le_of_lt hl)
    rw [Nat.succ_eq_add_one, startOf_succ hs]
    omega

theorem Grouped.startOf_le (hg : Grouped p kept n) {j : Nat} (hj : j ≤ kept.length) :
    startOf kept j ≤ n :=
  Nat.le_trans (hg.startOf_mono hj (Nat.le_refl _)) (Nat.le_of_eq hg.stop)

/-- The first groups stay, and a new one reaches from them to the next instruction. -/
theorem Grouped.extend (hg : Grouped p kept n) {length : Nat} (hl : length ≤ kept.length)
    {i : Instruction} (hr : Replaces i (p.segment (startOf kept length) (n + 1)))
    (hu : ∀ k, startOf kept length < k → k ≤ n → p.labels.marks k = false) :
    Grouped p (kept.take length ++ [⟨i, n⟩]) (n + 1) := by
  have hlen : (kept.take length).length = length := List.length_take_of_le hl
  -- a kept instruction is an old one with its group, or the new one
  have hcases : ∀ j s, (kept.take length ++ [⟨i, n⟩])[j]? = some s →
      (j < length ∧ kept[j]? = some s) ∨ (j = length ∧ s = ⟨i, n⟩) := by
    intro j s hs
    rcases Nat.lt_or_ge j length with hj | hj
    · rw [List.getElem?_append_left (by omega), List.getElem?_take_of_lt hj] at hs
      exact .inl ⟨hj, hs⟩
    · rw [List.getElem?_append_right (by omega), hlen, List.getElem?_singleton] at hs
      split at hs
      · cases hs
        exact .inr ⟨by omega, rfl⟩
      · cases hs
  constructor
  · intro j s hs
    rcases hcases j s hs with ⟨hj, hs⟩ | ⟨rfl, rfl⟩
    · rw [startOf_extend hl _ (Nat.le_of_lt hj)]
      exact hg.start_le j s hs
    · rw [startOf_extend hl _ (Nat.le_refl _)]
      exact hg.startOf_le hl
  · intro j s hs
    rcases hcases j s hs with ⟨hj, hs⟩ | ⟨rfl, rfl⟩
    · rw [startOf_extend hl _ (Nat.le_of_lt hj)]
      exact hg.replaces j s hs
    · rw [startOf_extend hl _ (Nat.le_refl _)]
      exact hr
  · intro j s hs
    rcases hcases j s hs with ⟨hj, hs⟩ | ⟨rfl, rfl⟩
    · rw [startOf_extend hl _ (Nat.le_of_lt hj)]
      exact hg.unlabelled j s hs
    · rw [startOf_extend hl _ (Nat.le_refl _)]
      exact hu
  · have hlast : (kept.take length ++ [⟨i, n⟩])[length]? = some ⟨i, n⟩ := by
      rw [List.getElem?_append_right (Nat.le_of_eq hlen), hlen, Nat.sub_self]
      rfl
    rw [List.length_append, hlen]
    exact startOf_succ hlast

end Grouped

/-! ## The shadow -/

/-- Where a constant is pushed. -/
def Shadow.position? : Shadow → Option Nat
  | .constant _ position => some position
  | .unknown => none

/-- A kept instruction pushes a constant, and no label stands between the start of its group and
position `n`. -/
structure Pushes (p : Program) (kept : List Survivor) (n : Nat) (value : Int) (j : Nat) : Prop where
  inside : j < kept.length
  computes : Computes (p.segment (startOf kept j) (startOf kept (j + 1))) value
  unlabelled : ∀ k, startOf kept j < k → k < n → p.labels.marks k = false

/-- What a shadow says is so, and constants lie on the stack in the order in which they are pushed. -/
structure Shadowed (p : Program) (kept : List Survivor) (n : Nat) (shadow : List Shadow) : Prop where
  pushes : ∀ value j, .constant value j ∈ shadow → Pushes p kept n value j
  falls : (shadow.filterMap Shadow.position?).Pairwise (· > ·)

theorem positions_constant (value : Int) (j : Nat) (shadow : List Shadow) :
    (Shadow.constant value j :: shadow).filterMap Shadow.position? =
      j :: shadow.filterMap Shadow.position? := rfl

section Shadowed

variable {p : Program} {kept : List Survivor} {n : Nat} {shadow : List Shadow}

/-- No label stands behind the start of a known group up to the current instruction. -/
theorem Pushes.unlabelled_le {value : Int} {j : Nat}
    (h : Pushes p kept n value j) (hn : p.labels.marks n = false) (k : Nat) (hk : startOf kept j < k)
    (hkn : k ≤ n) : p.labels.marks k = false := by
  rcases Nat.lt_or_eq_of_le hkn with hkn | rfl
  · exact h.unlabelled k hk hkn
  · exact hn

theorem shadowed_nil : Shadowed p kept n [] :=
  ⟨by simp, by simp⟩

theorem Shadowed.sublist (hs : Shadowed p kept n shadow) {rest : List Shadow}
    (h : rest.Sublist shadow) : Shadowed p kept n rest :=
  ⟨fun value j hm => hs.pushes value j (h.subset hm), hs.falls.sublist (h.filterMap _)⟩

theorem Shadowed.unknowns (hs : Shadowed p kept n shadow) (count : Nat) :
    Shadowed p kept n (List.replicate count .unknown ++ shadow) := by
  refine ⟨fun value j hm => ?_, ?_⟩
  · rcases List.mem_append.1 hm with hm | hm
    · cases List.eq_of_mem_replicate hm
    · exact hs.pushes value j hm
  · have hnil : (List.replicate count Shadow.unknown).filterMap Shadow.position? = [] := by
      simp [Shadow.position?]
    rw [List.filterMap_append, hnil]
    exact hs.falls

theorem Shadowed.unknown (hs : Shadowed p kept n shadow) : Shadowed p kept n (.unknown :: shadow) :=
  hs.unknowns 1

/-- Constants below the top one are pushed before it. -/
theorem Shadowed.lt_of_mem {value value' : Int} {j j' : Nat}
    (hs : Shadowed p kept n (.constant value j :: shadow)) (hm : .constant value' j' ∈ shadow) :
    j' < j := by
  have hf := hs.falls
  rw [positions_constant] at hf
  exact (List.pairwise_cons.1 hf).1 j' (List.mem_filterMap.2 ⟨_, hm, rfl⟩)

/-- Constants that are pushed by the first kept instructions stay known when others take the place of what
comes after those. -/
theorem Shadowed.extend (hs : Shadowed p kept n shadow) {length : Nat} (hl : length ≤ kept.length)
    (s : Survivor) (hbelow : ∀ value j, .constant value j ∈ shadow → j < length)
    (hn : p.labels.marks n = false ∨ shadow = []) :
    Shadowed p (kept.take length ++ [s]) (n + 1) shadow := by
  refine ⟨fun value j hm => ?_, hs.falls⟩
  have hj := hbelow value j hm
  have hp := hs.pushes value j hm
  have hn : p.labels.marks n = false := by
    rcases hn with hn | rfl
    · exact hn
    · simp at hm
  refine ⟨?_, ?_, fun k hk hkn => ?_⟩
  · rw [List.length_append, List.length_take_of_le hl]
    exact Nat.lt_succ_of_lt hj
  · rw [startOf_extend hl _ (Nat.le_of_lt hj), startOf_extend hl _ hj]
    exact hp.computes
  · rw [startOf_extend hl _ (Nat.le_of_lt hj)] at hk
    rcases Nat.lt_or_eq_of_le (Nat.le_of_lt_succ hkn) with hkn | rfl
    · exact hp.unlabelled k hk hkn
    · exact hn

/-- A constant on top that is pushed by the last kept instruction. -/
theorem Shadowed.constant (hs : Shadowed p kept n shadow) {value : Int} {j : Nat}
    (hp : Pushes p kept n value j) (hbelow : ∀ value' j', .constant value' j' ∈ shadow → j' < j) :
    Shadowed p kept n (.constant value j :: shadow) := by
  refine ⟨fun value' j' hm => ?_, ?_⟩
  · rcases List.mem_cons.1 hm with hm | hm
    · cases hm
      exact hp
    · exact hs.pushes value' j' hm
  · rw [positions_constant]
    refine List.pairwise_cons.2 ⟨fun j' hj => ?_, hs.falls⟩
    obtain ⟨entry, hm, he⟩ := List.mem_filterMap.1 hj
    cases entry with
    | constant value' j' =>
      cases he
      exact hbelow value' _ hm
    | unknown => cases he

end Shadowed

/-! ## The pass -/

/-- What holds of a pass before the instruction at position `n`. -/
structure Folding.Sound (p : Program) (n : Nat) (f : Folding) : Prop where
  grouped : Grouped p f.kept.toList n
  shadowed : Shadowed p f.kept.toList n f.shadow

namespace Folding

section Step

variable {p : Program} {n : Nat} {f : Folding} {i : Instruction}

theorem sound_start : Sound p 0 start :=
  ⟨⟨by simp [start], by simp [start], by simp [start], rfl⟩, shadowed_nil⟩

/-- An instruction that is kept is a group of its own. -/
theorem Sound.keep (hf : Sound p n f) (hi : p.instructions[n]? = some i)
    (hn : p.labels.marks n = false ∨ f.shadow = []) {shadow : List Shadow}
    (hs : ∀ kept m, Shadowed p kept m f.shadow → Shadowed p kept m shadow) :
    Sound p (n + 1) (f.keep i n shadow) := by
  have hkept : (f.keep i n shadow).kept.toList =
      f.kept.toList.take f.kept.toList.length ++ [⟨i, n⟩] := by
    rw [List.take_length]
    exact Array.toList_push
  have hstop := hf.grouped.stop
  constructor
  · rw [hkept]
    refine hf.grouped.extend (Nat.le_refl _) ?_ ?_
    · rw [hstop, p.segment_succ hi]
      exact .same i
    · rw [hstop]
      intro k hk hkn
      omega
  · rw [hkept]
    exact hs _ _ (hf.shadowed.extend (Nat.le_refl _) _
      (fun value j hm => (hf.shadowed.pushes value j hm).inside) hn)

/-- Code that computes a constant and reaches up to the current instruction becomes one group. -/
theorem Sound.fold (hf : Sound p n f) {length : Nat} (hl : length ≤ f.kept.toList.length) {value : Int}
    (hc : Computes (p.segment (startOf f.kept.toList length) (n + 1)) value)
    (hu : ∀ k, startOf f.kept.toList length < k → k ≤ n → p.labels.marks k = false)
    (hn : p.labels.marks n = false) {shadow : List Shadow} (hs : shadow.Sublist f.shadow)
    (hbelow : ∀ value j, .constant value j ∈ shadow → j < length) :
    Sound p (n + 1) (f.fold length value n shadow) := by
  have hkept : (f.fold length value n shadow).kept.toList =
      f.kept.toList.take length ++ [⟨⟨.push, [Text.numeral value]⟩, n⟩] := by
    rw [Folding.fold, Array.toList_push, Array.toList_shrink]
  have hg := hf.grouped.extend hl (.constant hc) hu
  rw [← hkept] at hg
  have hlen : (f.fold length value n shadow).kept.toList.length = length + 1 := by
    rw [hkept, List.length_append, List.length_take_of_le hl]
    rfl
  have hstart : startOf (f.fold length value n shadow).kept.toList length =
      startOf f.kept.toList length := by
    rw [hkept, startOf_extend hl _ (Nat.le_refl _)]
  refine ⟨hg, Shadowed.constant ?_ ⟨?_, ?_, ?_⟩ hbelow⟩
  · rw [hkept]
    exact (hf.shadowed.sublist hs).extend hl _ hbelow (.inl hn)
  · rw [hlen]
    exact Nat.lt_succ_self _
  · rw [hstart, ← hlen, hg.stop]
    exact hc
  · rw [hstart]
    intro k hk hkn
    exact hu k hk (Nat.le_of_lt_succ hkn)

theorem Sound.startOf_size (hf : Sound p n f) : startOf f.kept.toList f.kept.size = n := by
  rw [← Array.length_toList]
  exact hf.grouped.stop

/-- Where a label points nothing is known, so no label points where something is. -/
theorem unmarked_of_shadow (hn : p.labels.marks n = false ∨ f.shadow = []) {top : Shadow}
    {rest : List Shadow} (hs : f.shadow = top :: rest) : p.labels.marks n = false := by
  rcases hn with hn | hn
  · exact hn
  · simp [hs] at hn

/-- An operator is folded where the last two instructions pushed its operands. -/
theorem foldable?_eq_some {length : Nat} {op : BinaryOp} {shadow : List Shadow} {value : Int}
    (h : foldable? length op shadow = some value) :
    ∃ a b j rest, shadow = .constant b (j + 1) :: .constant a j :: rest ∧ length = j + 2 ∧
      op.apply a b = .ok value := by
  unfold foldable? at h
  split at h
  · rename_i b q a j rest
    split at h
    · rename_i hlast
      obtain ⟨hj, hq⟩ := hlast
      obtain rfl : q = j + 1 := by omega
      refine ⟨a, b, j, rest, rfl, hj.symm, ?_⟩
      cases hop : op.apply a b with
      | ok v =>
        rw [hop] at h
        cases h
        rfl
      | error e =>
        rw [hop] at h
        cases h
    · cases h
  · cases h

theorem Sound.binary (hf : Sound p n f) (hi : p.instructions[n]? = some i)
    (hn : p.labels.marks n = false ∨ f.shadow = []) {op : BinaryOp} (ho : i = ⟨.binary op, []⟩) :
    Sound p (n + 1) (f.binary op i n) := by
  unfold Folding.binary
  dsimp only
  split
  · rename_i value hfold
    obtain ⟨a, b, j, rest, hshadow, hsize, hvalue⟩ := foldable?_eq_some hfold
    have hn := unmarked_of_shadow hn hshadow
    have hlhs := hf.shadowed.pushes a j (by simp [hshadow])
    have hrhs := hf.shadowed.pushes b (j + 1) (by simp [hshadow])
    have hc := hrhs.computes
    rw [← hsize, hf.startOf_size] at hc
    have hlength : f.kept.size - 2 = j := by omega
    have hmiddle := hf.grouped.startOf_le (Nat.le_of_lt hrhs.inside)
    have hlow := hf.grouped.startOf_mono (Nat.le_succ j) (Nat.le_of_lt hrhs.inside)
    rw [hlength]
    refine hf.fold (Nat.le_of_lt hlhs.inside) ?_ (hlhs.unlabelled_le hn) hn (List.drop_sublist 2 _) ?_
    · -- the code of both operands, and the operator behind them
      rw [← p.segment_append (Nat.le_trans hlow hmiddle) (Nat.le_succ n), p.segment_succ hi, ho,
        ← p.segment_append hlow hmiddle]
      exact hlhs.computes.binary hc hvalue
    · intro value' j' hm
      rw [hshadow] at hm
      have hs := (hshadow ▸ hf.shadowed).sublist (List.sublist_cons_self _ _)
      exact hs.lt_of_mem hm
  · exact hf.keep hi hn fun kept m hs => (hs.sublist (List.drop_sublist 2 _)).unknown

theorem Sound.negation (hf : Sound p n f) (hi : p.instructions[n]? = some i)
    (hn : p.labels.marks n = false ∨ f.shadow = []) (ho : i = ⟨.neg, []⟩) :
    Sound p (n + 1) (f.negation i n) := by
  unfold Folding.negation
  split
  · rename_i value j rest hshadow
    have hn := unmarked_of_shadow hn hshadow
    split
    · rename_i hj
      have hp := hf.shadowed.pushes value j (by simp [hshadow])
      have hc := hp.computes
      rw [hj, hf.startOf_size] at hc
      refine hf.fold (Nat.le_of_lt hp.inside) ?_ (hp.unlabelled_le hn) hn ?_ ?_
      · rw [← p.segment_append (hf.grouped.startOf_le (Nat.le_of_lt hp.inside)) (Nat.le_succ n),
          p.segment_succ hi, ho]
        exact hc.neg
      · rw [hshadow]
        exact List.sublist_cons_self _ _
      · exact fun value' j' hm => (hshadow ▸ hf.shadowed).lt_of_mem hm
    · refine hf.keep hi (.inl hn) fun kept m hs => ?_
      rw [hshadow] at hs
      exact (hs.sublist (List.sublist_cons_self _ _)).unknown
  · exact hf.keep hi hn fun kept m hs => (hs.sublist (List.tail_sublist _)).unknown

theorem args_of_accepts {opcode : Opcode} {args : List String}
    (h : opcode.accepts args.length = true) (ho : ∀ count, opcode.accepts count = (count == 0)) :
    args = [] := by
  rw [ho] at h
  exact List.eq_nil_of_length_eq_zero (by simpa using h)

theorem Sound.push (hf : Sound p n f) {arg : String} (hi : p.instructions[n]? = some ⟨.push, [arg]⟩)
    (hn : p.labels.marks n = false ∨ f.shadow = []) :
    Sound p (n + 1) (f.keep ⟨.push, [arg]⟩ n (ofPush ⟨.push, [arg]⟩ f.kept.size :: f.shadow)) := by
  have hkeep : Sound p (n + 1) (f.keep ⟨.push, [arg]⟩ n f.shadow) := hf.keep hi hn fun _ _ hs => hs
  cases hread : Text.readInt? arg with
  | none =>
    have hshadow : ofPush ⟨.push, [arg]⟩ f.kept.size = .unknown := by
      simp only [ofPush, List.head?_cons, Option.bind_some, hread]
    rw [hshadow]
    exact ⟨hkeep.grouped, hkeep.shadowed.unknown⟩
  | some value =>
    have hshadow : ofPush ⟨.push, [arg]⟩ f.kept.size = .constant value f.kept.size := by
      simp only [ofPush, List.head?_cons, Option.bind_some, hread]
    rw [hshadow]
    have hkept : (f.keep ⟨.push, [arg]⟩ n f.shadow).kept.toList =
        f.kept.toList.take f.kept.toList.length ++ [⟨⟨.push, [arg]⟩, n⟩] := by
      rw [List.take_length]
      exact Array.toList_push
    have hstart : startOf (f.keep ⟨.push, [arg]⟩ n f.shadow).kept.toList f.kept.size = n := by
      rw [hkept, ← Array.length_toList, startOf_extend (Nat.le_refl _) _ (Nat.le_refl _)]
      exact hf.grouped.stop
    have hlen : (f.keep ⟨.push, [arg]⟩ n f.shadow).kept.toList.length = f.kept.size + 1 := by
      rw [hkept, List.length_append, List.take_length, Array.length_toList]
      rfl
    refine ⟨hkeep.grouped, hkeep.shadowed.constant ⟨?_, ?_, ?_⟩ fun value' j' hm => ?_⟩
    · rw [hlen]
      exact Nat.lt_succ_self _
    · rw [hstart, ← hlen, hkeep.grouped.stop, p.segment_succ hi]
      exact .push hread
    · rw [hstart]
      intro k hk hkn
      omega
    · rw [← Array.length_toList]
      exact (hf.shadowed.pushes value' j' hm).inside

/-- Every instruction with an accepted number of arguments keeps the invariant. -/
theorem Sound.step (hf : Sound p n f) (hi : p.instructions[n]? = some i)
    (ha : i.opcode.accepts i.args.length = true) :
    Sound p (n + 1) (f.step (p.labels.marks n) i n) := by
  obtain ⟨g, hg, hs, hn⟩ : ∃ g, (if p.labels.marks n then { f with shadow := [] } else f) = g ∧
      Sound p n g ∧ (p.labels.marks n = false ∨ g.shadow = []) := by
    cases hm : p.labels.marks n with
    | true => exact ⟨_, rfl, ⟨hf.grouped, shadowed_nil⟩, .inr rfl⟩
    | false => exact ⟨_, rfl, hf, .inl rfl⟩
  obtain ⟨opcode, args⟩ := i
  unfold Folding.step
  rw [hg]
  cases opcode with
  | binary op =>
    obtain rfl : args = [] := args_of_accepts ha fun _ => rfl
    exact hs.binary hi hn rfl
  | neg =>
    obtain rfl : args = [] := args_of_accepts ha fun _ => rfl
    exact hs.negation hi hn rfl
  | push =>
    obtain ⟨arg, rfl⟩ := List.length_eq_one_iff.1 (by simpa [Opcode.accepts] using ha)
    exact hs.push hi hn
  | jmp | ret | call => exact hs.keep hi hn fun _ _ _ => shadowed_nil
  | _ => exact hs.keep hi hn fun _ _ h => (h.sublist (List.drop_sublist _ _)).unknowns _

end Step

/-! ## The pass, instruction by instruction -/

/-- The pass over the first `n` instructions. -/
def after (p : Program) : Nat → Folding
  | 0 => start
  | n + 1 =>
    match p.instructions[n]? with
    | some i => (after p n).step (p.labels.marks n) i n
    | none => after p n

theorem after_succ {p : Program} {n : Nat} {i : Instruction} (hi : p.instructions[n]? = some i) :
    after p (n + 1) = (after p n).step (p.labels.marks n) i n := by
  rw [after, hi]

theorem run_eq_after (p : Program) : run p = after p p.size := by
  have htake : ∀ n ≤ p.size, (p.instructions.toList.take n).zipIdx.foldl
      (fun f entry => f.step (p.labels.marks entry.2) entry.1 entry.2) start = after p n := by
    intro n
    induction n with
    | zero => exact fun _ => rfl
    | succ n ih =>
      intro hn
      have hl : n < p.instructions.toList.length := by rwa [Array.length_toList]
      have hi : p.instructions[n]? = some p.instructions.toList[n] := by simp
      rw [after_succ hi, ← ih (Nat.le_of_succ_le hn), List.take_succ_eq_append_getElem hl,
        List.zipIdx_append, List.foldl_append, Nat.zero_add, List.length_take_of_le (Nat.le_of_lt hl)]
      rfl
  have h := htake p.size (Nat.le_refl _)
  rwa [Program.size, ← Array.length_toList, List.take_length, Array.length_toList] at h

/-- What a step keeps for an instruction: the instruction, or the `push` of a value in the place of an
operation. -/
inductive Leaves (i : Instruction) : Instruction → Prop where
  | same : Leaves i i
  | constant (ho : i.opcode ≠ .push) (value : Int) : Leaves i ⟨.push, [Text.numeral value]⟩

theorem mem_kept_keep {f : Folding} {i : Instruction} {n : Nat} {shadow : List Shadow} {s : Survivor}
    (hs : s ∈ (f.keep i n shadow).kept) : s ∈ f.kept ∨ s.origin = n ∧ Leaves i s.instruction := by
  rcases Array.mem_push.1 hs with hs | rfl
  · exact .inl hs
  · exact .inr ⟨rfl, .same⟩

theorem mem_kept_fold {f : Folding} {i : Instruction} (ho : i.opcode ≠ .push) {length n : Nat} {value : Int}
    {shadow : List Shadow} {s : Survivor} (hs : s ∈ (f.fold length value n shadow).kept) :
    s ∈ f.kept ∨ s.origin = n ∧ Leaves i s.instruction := by
  rcases Array.mem_push.1 hs with hs | rfl
  · rw [← Array.mem_toList_iff, Array.toList_shrink] at hs
    exact .inl (Array.mem_toList_iff.1 (List.mem_of_mem_take hs))
  · exact .inr ⟨rfl, .constant ho value⟩

theorem mem_kept_step {f : Folding} {labelled : Bool} {i : Instruction} {n : Nat} {s : Survivor}
    (hs : s ∈ (f.step labelled i n).kept) : s ∈ f.kept ∨ s.origin = n ∧ Leaves i s.instruction := by
  have hclear : (if labelled then { f with shadow := [] } else f).kept = f.kept := by
    cases labelled <;> rfl
  unfold Folding.step at hs
  dsimp only at hs
  generalize (if labelled then { f with shadow := [] } else f) = g at hclear hs
  rw [← hclear]
  split at hs
  · rename_i op ho
    unfold Folding.binary at hs
    dsimp only at hs
    split at hs
    · exact mem_kept_fold (by simp [ho]) hs
    · exact mem_kept_keep hs
  · rename_i ho
    unfold Folding.negation at hs
    split at hs
    · split at hs
      · exact mem_kept_fold (by simp [ho]) hs
      · exact mem_kept_keep hs
    · exact mem_kept_keep hs
  all_goals exact mem_kept_keep hs

theorem mem_kept_after {p : Program} {n : Nat} {s : Survivor} (hs : s ∈ (after p n).kept) :
    ∃ i, p.instructions[s.origin]? = some i ∧ Leaves i s.instruction := by
  induction n with
  | zero => simp [after, start] at hs
  | succ n ih =>
    unfold after at hs
    split at hs
    · rename_i i hi
      rcases mem_kept_step hs with hs | ⟨rfl, h⟩
      · exact ih hs
      · exact ⟨i, hi, h⟩
    · exact ih hs

/-- What a pass keeps is left for the old instruction at the origin. -/
theorem mem_kept_run {p : Program} {s : Survivor} (hs : s ∈ (run p).kept) :
    ∃ i, p.instructions[s.origin]? = some i ∧ Leaves i s.instruction := by
  rw [run_eq_after] at hs
  exact mem_kept_after hs

theorem sound_after {p : Program} (ha : ∀ i ∈ p.instructions, i.opcode.accepts i.args.length = true)
    {n : Nat} (hn : n ≤ p.size) : Sound p n (after p n) := by
  induction n with
  | zero => exact sound_start
  | succ n ih =>
    have hi : p.instructions[n]? = some p.instructions[n] := Array.getElem?_eq_getElem hn
    rw [after_succ hi]
    exact (ih (Nat.le_of_succ_le hn)).step hi (ha _ (Array.mem_of_getElem? hi))

/-- What a pass keeps divides the whole program into groups. -/
theorem grouped_run {p : Program} (ha : ∀ i ∈ p.instructions, i.opcode.accepts i.args.length = true) :
    Grouped p (run p).kept.toList p.size := by
  rw [run_eq_after]
  exact (sound_after ha (Nat.le_refl _)).grouped

end Folding

end CMinusMinus
