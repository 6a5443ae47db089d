import CMinusMinus.Proofs.Ideal.Straight
import CMinusMinus.Proofs.Optimizer.FoldedFlow

/-!
# Constant code becomes one push

Where code computes a constant and no label points into it, a folding pass leaves one `push` of it,
whatever it knew before. The pass can take the `push` away only for an operator that computes with the
constant, and such an operator is part of code that computes a constant too: of all code behind the first
one it leaves one value. So the `push` stays where the code behind it adds values until an instruction comes
that is no part of such code.
-/

namespace CMinusMinus

/-! ## Gains -/

/-- How many values more an instruction that computes leaves than it takes. -/
def Instruction.gain (i : Instruction) : Int :=
  match i.opcode with
  | .push => 1
  | .binary _ => -1
  | _ => 0

/-- Whether the instructions of code only compute values. -/
def OnlyComputes (code : List Instruction) : Prop :=
  ∀ i ∈ code, i.opcode.computes = true

/-- How many values more code leaves than it takes, if it only computes. -/
def gain (code : List Instruction) : Int :=
  (code.map Instruction.gain).sum

theorem gain_append (xs ys : List Instruction) : gain (xs ++ ys) = gain xs + gain ys := by
  simp [gain]

/-- As long as code only computes, it has left one value at least. -/
def Grows (code : List Instruction) : Prop :=
  ∀ front, front <+: code → OnlyComputes front → front = [] ∨ 1 ≤ gain front

section Grows

variable {xs ys : List Instruction}

theorem grows_nil : Grows [] :=
  fun _ hfront _ => .inl (List.prefix_nil.1 hfront)

theorem Grows.append (hx : Grows xs) (hy : Grows ys) : Grows (xs ++ ys) := by
  intro front hfront hc
  rcases List.prefix_or_prefix_of_prefix hfront (List.prefix_append xs ys) with h | ⟨back, rfl⟩
  · exact hx front h hc
  · have hback := (List.prefix_append_right_inj xs).1 hfront
    obtain ⟨hcx, hcback⟩ := List.forall_mem_append.1 hc
    rcases hx xs List.prefix_rfl hcx with rfl | hgain
    · exact hy back hback hcback
    · rw [gain_append]
      rcases hy back hback hcback with rfl | hgain'
      · exact .inr (by simpa [gain] using hgain)
      · exact .inr (by omega)

theorem Grows.snoc (hx : Grows xs) {i : Instruction}
    (hi : OnlyComputes xs → i.opcode.computes = true → 1 ≤ gain xs + i.gain) : Grows (xs ++ [i]) := by
  intro front hfront hc
  rcases List.prefix_concat_iff.1 hfront with rfl | h
  · obtain ⟨hcx, hci⟩ := List.forall_mem_append.1 hc
    rw [gain_append]
    have hgain := hi hcx (hci i (List.mem_singleton_self i))
    exact .inr (by simpa [gain] using hgain)
  · exact hx front h hc

theorem Grows.one_le (hx : Grows xs) (hne : xs ≠ []) (hc : OnlyComputes xs) : 1 ≤ gain xs :=
  (hx xs List.prefix_rfl hc).resolve_left hne

theorem grows_singleton {i : Instruction} (hi : i.opcode.computes = true → 1 ≤ i.gain) : Grows [i] :=
  grows_nil.snoc fun _ hc => by simpa [gain] using hi hc

end Grows

/-- Code that computes a constant leaves one value. -/
structure Balanced (code : List Instruction) : Prop where
  computes : OnlyComputes code
  grows : Grows code
  gain_eq : gain code = 1

theorem Computes.balanced {code : List Instruction} {value : Int} (h : Computes code value) :
    Balanced code := by
  induction h with
  | push h => exact ⟨List.forall_mem_singleton.2 rfl, grows_singleton fun _ => Int.le_refl 1, rfl⟩
  | @binary op lhs rhs a b value hl hr hop ihl ihr =>
    have hgain : gain (lhs ++ rhs ++ [(⟨.binary op, []⟩ : Instruction)]) = 1 := by
      rw [gain_append, gain_append, ihl.gain_eq, ihr.gain_eq]
      rfl
    refine ⟨?_, (ihl.grows.append ihr.grows).snoc fun _ _ => ?_, hgain⟩
    · exact List.forall_mem_append.2 ⟨List.forall_mem_append.2 ⟨ihl.computes, ihr.computes⟩,
        List.forall_mem_singleton.2 rfl⟩
    · rw [gain_append, ihl.gain_eq, ihr.gain_eq]
      exact Int.le_refl 1
  | @neg operand value h ih =>
    have hgain : gain (operand ++ [(⟨.neg, []⟩ : Instruction)]) = 1 := by
      rw [gain_append, ih.gain_eq]
      rfl
    refine ⟨List.forall_mem_append.2 ⟨ih.computes, List.forall_mem_singleton.2 rfl⟩,
      ih.grows.snoc fun _ _ => ?_, hgain⟩
    rw [ih.gain_eq]
    exact Int.le_refl 1

/-! ## Straight code -/

/-- A program has code from a position on, and no label points into the code behind its first
instruction. -/
structure Program.Straight (p : Program) (k : Nat) (code : List Instruction) : Prop where
  place : Ideal.CodeAt p k code
  unlabelled : ∀ j, k < j → j < k + code.length → p.labels.marks j = false

section Straight

variable {p : Program} {k : Nat} {xs ys : List Instruction}

theorem Program.Straight.left (h : p.Straight k (xs ++ ys)) : p.Straight k xs := by
  refine ⟨h.place.left, fun j hk hj => h.unlabelled j hk ?_⟩
  rw [List.length_append]
  omega

theorem Program.Straight.right (h : p.Straight k (xs ++ ys)) : p.Straight (k + xs.length) ys := by
  refine ⟨h.place.right, fun j hk hj => h.unlabelled j (by omega) ?_⟩
  rw [List.length_append]
  omega

theorem Program.Straight.between (h : p.Straight k (xs ++ ys)) (hx : xs ≠ []) (hy : ys ≠ []) :
    p.labels.marks (k + xs.length) = false := by
  have hxs := List.length_pos_iff.2 hx
  have hys := List.length_pos_iff.2 hy
  refine h.unlabelled _ (by omega) ?_
  rw [List.length_append]
  omega

end Straight

namespace Folding

variable {p : Program}

/-! ## Constants are folded -/

/-- After code a pass has put one instruction behind what it kept, which pushes a constant; it is the whole
code or pushes the numeral of the constant. Below the constant it knows what it knew where the code starts. -/
structure Pushed (p : Program) (k : Nat) (code : List Instruction) (value : Int) (i : Instruction) : Prop where
  kept_eq : (after p (k + code.length)).kept.toList =
    (after p k).kept.toList ++ [⟨i, k + code.length - 1⟩]
  shadow_eq : (after p (k + code.length)).shadow = .constant value (after p k).kept.size ::
    if p.labels.marks k then [] else (after p k).shadow
  stands : code = [i] ∨ i = ⟨.push, [Text.numeral value]⟩

theorem Pushed.size_eq {k : Nat} {code : List Instruction} {value : Int} {i : Instruction}
    (h : Pushed p k code value i) :
    (after p (k + code.length)).kept.size = (after p k).kept.size + 1 := by
  rw [← Array.length_toList, h.kept_eq, List.length_append, Array.length_toList]
  rfl

theorem after_succ_unlabelled {n : Nat} {i : Instruction} (hi : p.instructions[n]? = some i)
    (hn : p.labels.marks n = false) : after p (n + 1) = (after p n).step false i n := by
  rw [after_succ hi, hn]

theorem pushed_of_fold {k : Nat} {code : List Instruction} {value : Int} {f : Folding}
    (hf : (after p k).kept.toList <+: f.kept.toList)
    (h : after p (k + code.length) = f.fold (after p k).kept.size value (k + code.length - 1)
      (if p.labels.marks k then [] else (after p k).shadow)) :
    Pushed p k code value ⟨.push, [Text.numeral value]⟩ := by
  refine ⟨?_, by rw [h, Folding.fold], .inr rfl⟩
  rw [h, Folding.fold, Array.toList_push, Array.toList_shrink, ← Array.length_toList,
    ← List.prefix_iff_eq_take.1 hf]

/-- Constant code is folded from any state of the pass. -/
theorem exists_pushed {code : List Instruction} {value : Int} (hc : Computes code value) {k : Nat}
    (hs : p.Straight k code) : ∃ i, Pushed p k code value i := by
  induction hc generalizing k with
  | @push arg value hread =>
    have hpush : ∀ j, ofPush ⟨.push, [arg]⟩ j = .constant value j := by
      intro j
      simp only [ofPush, List.head?_cons, Option.bind_some, hread]
    refine ⟨⟨.push, [arg]⟩, ?_, ?_, .inl rfl⟩
    all_goals
      rw [List.length_singleton, after_succ hs.place.head]
      cases p.labels.marks k <;> simp [Folding.step, keep, hpush]
  | @neg operand a ho ih =>
    obtain ⟨i, h⟩ := ih hs.left
    have hmark := hs.between ho.ne_nil (List.cons_ne_nil _ _)
    refine ⟨_, pushed_of_fold (f := after p (k + operand.length)) ?_ ?_⟩
    · rw [h.kept_eq]
      exact List.prefix_append ..
    · rw [List.length_append, List.length_singleton, ← Nat.add_assoc, Nat.add_sub_cancel,
        after_succ_unlabelled hs.right.place.head hmark]
      simp only [Folding.step, Bool.false_eq_true, if_false, negation, h.shadow_eq, h.size_eq, if_true]
  | @binary op lhs rhs a b value hl hr hop ihl ihr =>
    obtain ⟨i, h⟩ := ihl hs.left.left
    obtain ⟨j, h'⟩ := ihr hs.left.right
    -- The code of the operands is not empty, so no label points behind either.
    have hmiddle := hs.left.between hl.ne_nil hr.ne_nil
    have hmark := hs.between (List.append_ne_nil_of_left_ne_nil hl.ne_nil rhs) (List.cons_ne_nil _ _)
    have hhead := hs.right.place.head
    rw [List.length_append, ← Nat.add_assoc] at hmark hhead
    refine ⟨_, pushed_of_fold (f := after p (k + lhs.length + rhs.length)) ?_ ?_⟩
    · rw [h'.kept_eq, h.kept_eq, List.append_assoc]
      exact List.prefix_append ..
    · rw [List.length_append, List.length_append, List.length_singleton, ← Nat.add_assoc, ← Nat.add_assoc,
        Nat.add_sub_cancel, after_succ_unlabelled hhead hmark]
      simp [Folding.step, Folding.binary, foldable?, h'.shadow_eq, h'.size_eq, h.shadow_eq, h.size_eq, hmiddle,
        hop, Except.toOption]

/-! ## Constants stay -/

/-- Behind a value on the stack the program has code that puts others on it, and then an instruction that
is more than a computation. -/
structure Used (p : Program) (k : Nat) (behind : List Instruction) (i : Instruction) : Prop where
  place : Ideal.CodeAt p k (behind ++ [i])
  grows : Grows behind
  ends : i.opcode.computes = false

/-- Code that starts behind the value and only computes leaves the value where it is. -/
theorem Used.one_le_gain {k n : Nat} {behind : List Instruction} {i : Instruction} (h : Used p k behind i)
    (hc : OnlyComputes (p.segment k n)) (hne : p.segment k n ≠ []) : 1 ≤ gain (p.segment k n) := by
  have hnot : ¬ behind ++ [i] <+: p.segment k n := by
    intro hwhole
    have hi := hc i (hwhole.subset (by simp))
    rw [h.ends] at hi
    cases hi
  have hsegment : p.segment k n <+: behind ++ [i] :=
    (List.prefix_or_prefix_of_prefix (List.take_prefix _ _) h.place.prefix_drop).resolve_right hnot
  rcases List.prefix_concat_iff.1 hsegment with he | hsegment
  · exact absurd (he ▸ List.prefix_rfl) hnot
  · exact (h.grows _ hsegment hc).resolve_left hne

/-- A group that has the start of a value in it does not go beyond the value. -/
theorem Used.not_replaces {k start stop : Nat} {behind : List Instruction} {i j : Instruction}
    (h : Used p k behind i) (hs : start < k) (hk : k < stop) (hstop : stop ≤ p.size) :
    ¬ Replaces j (p.segment start stop) := by
  intro hr
  generalize hcode : p.segment start stop = code at hr
  cases hr with
  | same j =>
    have hlength := p.length_segment (a := start) hstop
    rw [hcode, List.length_singleton] at hlength
    omega
  | constant hc =>
    have hbalanced := hc.balanced
    rw [← hcode, ← p.segment_append (Nat.le_of_lt hs) (Nat.le_of_lt hk)] at hbalanced
    obtain ⟨hfront, hback⟩ := List.forall_mem_append.1 hbalanced.computes
    have hgain := hbalanced.gain_eq
    have hfrontGain := (hbalanced.grows _ (List.prefix_append ..) hfront).resolve_left
      (p.segment_ne_nil hs (Nat.le_trans (Nat.le_of_lt hk) hstop))
    have hbackGain := h.one_le_gain hback (p.segment_ne_nil hk hstop)
    rw [gain_append] at hgain
    omega

section Valid

variable (ha : ∀ i ∈ p.instructions, i.opcode.accepts i.args.length = true)
include ha

/-- A step puts one instruction behind the first ones that were kept, for the code from there on. -/
theorem exists_after_succ {n : Nat} (hn : n < p.size) : ∃ length last,
    (after p (n + 1)).kept.toList = (after p n).kept.toList.take length ++ [⟨last, n⟩] ∧
      Replaces last (p.segment (startOf (after p n).kept.toList length) (n + 1)) := by
  have hfaithful := faithful_after (Nat.le_of_lt hn)
  have hi : p.instructions[n]? = some p.instructions[n] := Array.getElem?_eq_getElem hn
  have hgroups := (sound_after ha (Nat.succ_le_of_lt hn)).grouped
  obtain ⟨length, last, hsteps⟩ := exists_steps hfaithful.falls
    (fun _ => hfaithful.lt_of_mem_positions) (p.labels.marks n) (i := p.instructions[n]) (n := n)
  rw [← after_succ hi] at hsteps
  rw [Nat.succ_eq_add_one, hsteps.kept_eq] at hgroups
  refine ⟨length, last, hsteps.kept_eq, ?_⟩
  rw [← startOf_extend hsteps.le ⟨last, n⟩ (Nat.le_refl _)]
  refine hgroups.replaces length ⟨last, n⟩ ?_
  have hlength := List.length_take_of_le hsteps.le
  rw [List.getElem?_append_right (Nat.le_of_eq hlength), hlength, Nat.sub_self]
  rfl

theorem Used.prefix_after {k n : Nat} {behind : List Instruction} {i : Instruction} (h : Used p k behind i)
    (hkn : k ≤ n) (hn : n ≤ p.size) : (after p k).kept.toList <+: (after p n).kept.toList := by
  induction hkn with
  | refl => exact List.prefix_rfl
  | @step n hkn ih =>
    have ih := ih (Nat.le_of_succ_le hn)
    obtain ⟨length, last, hkept, hreplaces⟩ := exists_after_succ ha hn
    rw [Nat.succ_eq_add_one, hkept]
    rcases Nat.lt_or_ge length (after p k).kept.toList.length with hlt | hge
    · -- The new group would reach from before the value to behind it.
      have hold := List.prefix_iff_getElem?.1 ih length hlt
      have hstart := (sound_after ha (Nat.le_of_succ_le hn)).grouped.start_le length _ hold
      have hbelow := (faithful_after (Nat.le_trans hkn (Nat.le_of_succ_le hn))).below _
        (List.getElem_mem hlt)
      exact absurd hreplaces
        (h.not_replaces (Nat.lt_of_le_of_lt hstart hbelow) (Nat.lt_succ_of_le hkn) hn)
    · exact (List.prefix_take_iff.2 ⟨ih, hge⟩).trans (List.prefix_append ..)

end Valid

end Folding

/-! ## Folded programs -/

namespace Program

variable {p : Program}

/-- Code of a constant, which is used, is one `push` in the folded program. -/
theorem segment_fold (ha : ∀ i ∈ p.instructions, i.opcode.accepts i.args.length = true)
    {k : Nat} {code behind : List Instruction} {value : Int} {i : Instruction} (hc : Computes code value)
    (hs : p.Straight k code) (hu : Folding.Used p (k + code.length) behind i) :
    ∃ j, (code = [j] ∨ j = ⟨.push, [Text.numeral value]⟩) ∧
      p.fold.segment (movedTo p.foldKept k) (movedTo p.foldKept (k + code.length)) = [j] := by
  obtain ⟨j, h⟩ := Folding.exists_pushed hc hs
  refine ⟨j, h.stands, ?_⟩
  have hpos := List.length_pos_iff.2 hc.ne_nil
  have hle : k + code.length ≤ p.size := by
    have hend := (Array.getElem?_eq_some_iff.1 hu.place.right.head).1
    exact Nat.le_trans (Nat.le_add_right _ _) (Nat.le_of_lt hend)
  -- What was kept up to the end of the code is kept in the end: what was kept before it, and the `push`.
  obtain ⟨back, hkept⟩ : (Folding.after p (k + code.length)).kept.toList <+: p.foldKept.toList := by
    rw [foldKept, Folding.run_eq_after]
    exact hu.prefix_after ha hle (Nat.le_refl _)
  rw [h.kept_eq, List.append_assoc] at hkept
  have hbefore := (Folding.faithful_after (Nat.le_trans (Nat.le_add_right _ _) hle)).below
  obtain ⟨hget, hstart, hstop⟩ := movedTo_split (rising_foldKept p) hkept hbefore (by dsimp only; omega)
  have hend : k + code.length - 1 + 1 = k + code.length := by omega
  rw [hend] at hstop
  rw [hstart, hstop]
  refine segment_succ ?_
  rw [getElem?_fold, hget]
  rfl

end Program

end CMinusMinus
