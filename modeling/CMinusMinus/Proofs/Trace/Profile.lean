import CMinusMinus.Proofs.Code.Writing
import CMinusMinus.Proofs.Machine.Allocation
import CMinusMinus.Proofs.Machine.Brackets
import CMinusMinus.Proofs.Machine.Collection
import CMinusMinus.Proofs.Trace.Limits
import CMinusMinus.Trace.Profile
import Mathlib

/-!
# Profiles and recordings

A profile sums up what a recording of the same run holds. Its counts are kept in the order in which the
operations were first executed, and its report sorts them by an order in which no two of them are equal, so
nothing of that first order is left in the report. The greatest depth can be told from the calls alone, since
a frame is entered by a call.
-/

namespace CMinusMinus

/-! ## Events -/

namespace Event

/-- The operation of an instruction that is told of. -/
def opcode? : Event → Option Opcode
  | instruction _ opcode _ _ => some opcode
  | _ => none

/-- How many frames there are after a call that is told of. -/
def entered? : Event → Option Nat
  | call _ depth => some depth
  | _ => none

/-- How many slots a collection that is told of has freed. -/
def freed? : Event → Option Nat
  | collection freed _ => some freed
  | _ => none

/-- How many frames there are at an instruction, or after a call. -/
def depth? : Event → Option Nat
  | instruction _ _ _ frames => some frames
  | call _ depth => some depth
  | _ => none

theorem length_opcodes (events : List Event) :
    (events.filterMap opcode?).length = instructions events := by
  rw [List.length_filterMap_eq_countP]
  exact List.countP_congr fun event _ => by cases event <;> simp [opcode?, isInstruction]

end Event

/-! ## Counts -/

namespace Profile

variable {opcode : Opcode} {keys : List Opcode}

/-- To count an operation raises its number, or begins it behind the others. -/
theorem increment_map (count : Opcode → Nat) (hkeys : keys.Nodup) :
    increment opcode (keys.map fun other => (other, count other)) =
      (keys.map fun other => (other, count other + if other = opcode then 1 else 0)) ++
        if opcode ∈ keys then [] else [(opcode, 1)] := by
  induction keys with
  | nil => rfl
  | cons key keys ih =>
    obtain ⟨hkey, hkeys⟩ := List.nodup_cons.1 hkeys
    rw [List.map_cons, increment]
    by_cases he : key = opcode
    · subst he
      have hrest : ∀ other ∈ keys, (other, count other + if other = key then 1 else 0) =
          (other, count other) := by
        intro other hother
        rw [if_neg (by rintro rfl; exact hkey hother), Nat.add_zero]
      rw [if_pos rfl, List.map_cons, if_pos rfl, if_pos (List.mem_cons_self ..), List.append_nil,
        List.map_congr_left hrest]
    · rw [if_neg he, ih hkeys, List.map_cons, if_neg he, Nat.add_zero, List.cons_append]
      simp [Ne.symm he]

/-- The operations of a list, in the order in which they first occur, with their numbers. -/
def Counts (counts : List (Opcode × Nat)) (opcodes : List Opcode) : Prop :=
  ∃ keys : List Opcode, keys.Nodup ∧ (∀ opcode, opcode ∈ keys ↔ opcode ∈ opcodes) ∧
    counts = keys.map fun opcode => (opcode, opcodes.count opcode)

variable {counts : List (Opcode × Nat)} {opcodes : List Opcode}

theorem Counts.increment (h : Counts counts opcodes) (opcode : Opcode) :
    Counts (Profile.increment opcode counts) (opcodes ++ [opcode]) := by
  obtain ⟨keys, hnodup, hkeys, rfl⟩ := h
  have hcount : (fun other => (other, (opcodes ++ [opcode]).count other)) =
      fun other => (other, opcodes.count other + if other = opcode then 1 else 0) := by
    funext other
    rw [List.count_append]
    by_cases he : other = opcode
    · simp [he]
    · simp [he, Ne.symm he]
  rw [increment_map _ hnodup, Counts, hcount]
  by_cases hm : opcode ∈ keys
  · refine ⟨keys, hnodup, fun other => ?_, by simp [hm]⟩
    rw [hkeys, List.mem_append, List.mem_singleton]
    constructor
    · exact .inl
    · rintro (h | rfl)
      · exact h
      · exact (hkeys _).1 hm
  · have hzero : opcodes.count opcode = 0 := List.count_eq_zero.2 fun h => hm ((hkeys opcode).2 h)
    refine ⟨keys ++ [opcode], ?_, fun other => by simp [hkeys], by simp [hm, hzero]⟩
    exact List.nodup_append.2 ⟨hnodup, by simp, by simpa using fun a ha => ne_of_mem_of_not_mem ha hm⟩

namespace Counts

variable (h : Counts counts opcodes)
include h

theorem mem_iff {opcode : Opcode} {n : Nat} :
    (opcode, n) ∈ counts ↔ n = opcodes.count opcode ∧ 0 < n := by
  obtain ⟨keys, -, hkeys, rfl⟩ := h
  simp only [List.mem_map, Prod.mk.injEq, hkeys]
  constructor
  · rintro ⟨_, hm, rfl, rfl⟩
    exact ⟨rfl, List.count_pos_iff.2 hm⟩
  · rintro ⟨rfl, hpos⟩
    exact ⟨opcode, List.count_pos_iff.1 hpos, rfl, rfl⟩

theorem nodup : (counts.map Prod.fst).Nodup := by
  obtain ⟨keys, hnodup, -, rfl⟩ := h
  simpa [Function.comp_def] using hnodup

theorem sum_eq : (counts.map Prod.snd).sum = opcodes.length := by
  obtain ⟨keys, hnodup, hkeys, rfl⟩ := h
  have hperm : keys.Perm opcodes.dedup :=
    (List.perm_ext_iff_of_nodup hnodup opcodes.nodup_dedup).2 fun opcode => by
      rw [hkeys, List.mem_dedup]
  rw [List.map_map, ← opcodes.sum_map_count_dedup_eq_length]
  exact (hperm.map _).sum_eq

/-- Which operations occur how often decides the counts but for their order. -/
theorem perm {counts' : List (Opcode × Nat)} {opcodes' : List Opcode} (h' : Counts counts' opcodes')
    (hperm : opcodes'.Perm opcodes) : counts'.Perm counts := by
  refine (List.perm_ext_iff_of_nodup h'.nodup.of_map h.nodup.of_map).2 fun ⟨opcode, n⟩ => ?_
  rw [h'.mem_iff, h.mem_iff, hperm.count_eq]

end Counts

/-! ## Profiles of events -/

/-- What a profile holds after events. -/
structure Sums (p : Profile) (events : List Event) : Prop where
  counts : Counts p.counts (events.filterMap Event.opcode?)
  instructions : p.instructions = (events.filterMap Event.opcode?).length
  calls : p.calls = (events.filterMap Event.entered?).length
  collections : p.collections = (events.filterMap Event.freed?).length
  freed : p.freed = (events.filterMap Event.freed?).sum % Text.countBound
  maxDepth : p.maxDepth = (events.filterMap Event.depth?).foldr max 0

theorem foldr_max_concat (ns : List Nat) (n : Nat) : (ns ++ [n]).foldr max 0 = max (ns.foldr max 0) n := by
  induction ns with
  | nil => simp
  | cons m ns ih => rw [List.cons_append, List.foldr_cons, ih, List.foldr_cons, max_assoc]

theorem Sums.observe {p : Profile} {events : List Event} (h : p.Sums events) (event : Event) :
    (p.observe event).Sums (events ++ [event]) := by
  constructor
  · cases event with
    | instruction _ opcode =>
      simpa [Profile.observe, Event.opcode?, List.filterMap_cons] using h.counts.increment opcode
    | _ => simpa [Profile.observe, Event.opcode?, List.filterMap_cons] using h.counts
  · cases event <;> simp [Profile.observe, Event.opcode?, List.filterMap_cons, h.instructions]
  · cases event <;> simp [Profile.observe, Event.entered?, List.filterMap_cons, h.calls]
  · cases event <;> simp [Profile.observe, Event.freed?, List.filterMap_cons, h.collections]
  · cases event <;> simp [Profile.observe, Event.freed?, List.filterMap_cons, h.freed]
  · cases event with
    | instruction | call =>
      rw [List.filterMap_append]
      exact (congrArg (max · _) h.maxDepth).trans (foldr_max_concat _ _).symm
    | _ => simpa [Profile.observe, Event.depth?, List.filterMap_cons] using h.maxDepth

theorem sums_foldl (events : List Event) : (events.foldl observe start).Sums events := by
  induction events using List.reverseRecOn with
  | nil => exact ⟨⟨[], List.nodup_nil, fun _ => Iff.rfl, rfl⟩, rfl, rfl, rfl, rfl, rfl⟩
  | append_singleton events event ih =>
    rw [List.foldl_append]
    exact ih.observe event

/-! ## Reports -/

end Profile

theorem Opcode.name_injective : Function.Injective Opcode.name := by
  intro a b h
  have hb := b.ofName?_name
  rw [← h, a.ofName?_name] at hb
  exact Option.some.inj hb

namespace Profile

theorem listedBefore_iff {a b : Opcode × Nat} :
    listedBefore a b = true ↔ b.2 < a.2 ∨ a.2 = b.2 ∧ a.1.name ≤ b.1.name := by
  simp [listedBefore]

theorem listedBefore_trans (a b c : Opcode × Nat) (hab : listedBefore a b = true)
    (hbc : listedBefore b c = true) : listedBefore a c = true := by
  rw [listedBefore_iff] at *
  rcases hab with hab | ⟨hab, hname⟩
  · rcases hbc with hbc | ⟨hbc, -⟩ <;> exact .inl (by omega)
  · rcases hbc with hbc | ⟨hbc, hname'⟩
    · exact .inl (by omega)
    · exact .inr ⟨hab.trans hbc, hname.trans hname'⟩

theorem listedBefore_total (a b : Opcode × Nat) : (listedBefore a b || listedBefore b a) = true := by
  rw [Bool.or_eq_true, listedBefore_iff, listedBefore_iff]
  rcases Nat.lt_trichotomy a.2 b.2 with h | h | h
  · exact .inr (.inl h)
  · rcases le_total a.1.name b.1.name with hname | hname
    · exact .inl (.inr ⟨h, hname⟩)
    · exact .inr (.inr ⟨h.symm, hname⟩)
  · exact .inl (.inl h)

/-- No two entries are listed together. -/
theorem listedBefore_antisymm {a b : Opcode × Nat} (hab : listedBefore a b = true)
    (hba : listedBefore b a = true) : a = b := by
  rw [listedBefore_iff] at hab hba
  rcases hab with hab | ⟨hcount, hab⟩
  · omega
  · rcases hba with hba | ⟨-, hba⟩
    · omega
    · exact Prod.ext (Opcode.name_injective (le_antisymm hab hba)) hcount

theorem ranking_perm (p : Profile) : p.ranking.Perm p.counts :=
  List.mergeSort_perm ..

theorem pairwise_ranking (p : Profile) : p.ranking.Pairwise fun a b => listedBefore a b = true :=
  List.pairwise_mergeSort listedBefore_trans listedBefore_total p.counts

/-- The order in which the counts are kept does not matter. -/
theorem ranking_congr {p q : Profile} (h : p.counts.Perm q.counts) : p.ranking = q.ranking :=
  List.Perm.eq_of_pairwise (fun _ _ _ _ => listedBefore_antisymm) p.pairwise_ranking q.pairwise_ranking
    (p.ranking_perm.trans (h.trans q.ranking_perm.symm))

theorem report_congr {p q : Profile} (hcounts : p.counts.Perm q.counts)
    (h : p = { q with counts := p.counts }) : p.report = q.report := by
  have hranking := ranking_congr hcounts
  have hline : p.line = q.line := by rw [h]; rfl
  unfold report
  rw [hranking, hline, h]

/-- An entry comes before another one if its operation occurred more often, or as often and has the smaller
name. -/
def Precedes (a b : Opcode × Nat) : Prop :=
  b.2 < a.2 ∨ a.2 = b.2 ∧ a.1.name < b.1.name

namespace Sums

variable {p q : Profile} {events events' : List Event}

theorem mem_ranking_iff (h : p.Sums events) {opcode : Opcode} {n : Nat} : (opcode, n) ∈ p.ranking ↔
    n = (events.filterMap Event.opcode?).count opcode ∧ 0 < n := by
  rw [p.ranking_perm.mem_iff, h.counts.mem_iff]

theorem nodup_ranking (h : p.Sums events) : (p.ranking.map Prod.fst).Nodup :=
  (p.ranking_perm.map _).nodup_iff.2 h.counts.nodup

theorem sum_ranking (h : p.Sums events) : (p.ranking.map Prod.snd).sum = p.instructions := by
  rw [(p.ranking_perm.map _).sum_eq, h.counts.sum_eq, h.instructions]

theorem strict_ranking (h : p.Sums events) : p.ranking.Pairwise Precedes := by
  have hne : p.ranking.Pairwise fun a b => a.1 ≠ b.1 := List.pairwise_map.1 h.nodup_ranking
  refine (p.pairwise_ranking.and hne).imp fun ⟨hab, hne⟩ => ?_
  rcases listedBefore_iff.1 hab with hab | ⟨hcount, hab⟩
  · exact .inl hab
  · exact .inr ⟨hcount, hab.lt_of_ne fun he => hne (Opcode.name_injective he)⟩

/-- The order of the events does not matter. -/
theorem report_eq (h : p.Sums events) (h' : q.Sums events') (hperm : events'.Perm events) :
    q.report = p.report := by
  have hopcodes := hperm.filterMap Event.opcode?
  refine report_congr (h.counts.perm h'.counts hopcodes) ?_
  have hfreed := (hperm.filterMap Event.freed?).sum_eq
  have hmaxDepth := (hperm.filterMap Event.depth?).foldr_eq (f := max) 0
  obtain ⟨counts, instructions, maxDepth, calls, collections, freed⟩ := q
  simp only [mk.injEq, true_and]
  exact ⟨h'.instructions.trans (hopcodes.length_eq.trans h.instructions.symm),
    h'.maxDepth.trans (hmaxDepth.trans h.maxDepth.symm),
    h'.calls.trans ((hperm.filterMap _).length_eq.trans h.calls.symm),
    h'.collections.trans ((hperm.filterMap _).length_eq.trans h.collections.symm),
    h'.freed.trans ((congrArg (· % Text.countBound) hfreed).trans h.freed.symm)⟩

end Sums

end Profile

/-! ## Depths -/

/-- The greatest depth that a call is told with. -/
def Event.deepest (events : List Event) : Nat :=
  (events.filterMap entered?).foldr max 0

theorem Event.deepest_append (before after : List Event) :
    deepest (before ++ after) = max (deepest before) (deepest after) := by
  induction before with
  | nil => simp [deepest]
  | cons event before ih =>
    unfold deepest at ih ⊢
    rw [List.cons_append, List.filterMap_cons, List.filterMap_cons]
    cases event.entered? with
    | none => exact ih
    | some depth => simp only [List.foldr_cons, ih, max_assoc]

theorem Event.deepest_brackets (events : List Event) : deepest (events.filter isBracket) = deepest events := by
  unfold deepest
  rw [List.filterMap_filter]
  refine congrArg (List.foldr max 0) (List.filterMap_congr fun event _ => ?_)
  cases event <;> rfl

section Turns

variable {p : Program} {s : State}

/-- A turn tells of its instruction first, and of no other one. -/
theorem Program.events_turn (p : Program) (s : State) : (p.turn s).events = [] ∨
    ∃ i rest, p.instructions[s.position]? = some i ∧
      (p.turn s).events = .instruction s.position i.opcode s.stack.height s.depth :: rest ∧
      ∀ event ∈ rest, event.isInstruction = false := by
  rcases p.turn_cases s with ⟨-, hturn⟩ | ⟨i, hi, ⟨cause, hturn⟩ | ⟨control, hturn⟩⟩
  · exact .inl (by rw [hturn])
  · exact .inr ⟨i, [], hi, by rw [hturn], nofun⟩
  · refine .inr ⟨i, _, hi, by rw [hturn], fun event he => ?_⟩
    rcases List.mem_append.1 he with he | he
    · cases control <;> simp_all [Control.events, Event.isInstruction]
    · obtain ⟨freed, live, rfl⟩ := State.events_afterInstruction he
      rfl

/-- A turn enters no frame without telling of it. -/
theorem Program.depth_turn_le_deepest (p : Program) (s : State) :
    (p.turn s).state.depth ≤ max s.depth (Event.deepest (p.turn s).events) := by
  have hb := bracket_turn p s
  rw [← Event.deepest_brackets]
  generalize (p.turn s).events.filter Event.isBracket = events at hb
  cases hb with
  | stays bindings h =>
    refine le_max_of_le_left ?_
    rw [← State.length_links, ← State.length_links, h]
    simp [State.links, State.frames]
  | enters label hd h => exact le_max_of_le_right (le_max_left _ 0)
  | leaves bindings hs h =>
    refine le_max_of_le_left ?_
    rw [← State.length_links, ← State.length_links, h, List.length_cons]
    exact Nat.le_succ _

end Turns

/-- What holds of a recorded run: its depth and those that it was told at instructions are not above the
calls, and it begins with an instruction. -/
structure Run.Delves (run : Run (List Event)) : Prop where
  depth : run.state.depth ≤ max 1 (Event.deepest run.observed)
  told : ∀ position opcode stack frames, .instruction position opcode stack frames ∈ run.observed →
    1 ≤ frames ∧ frames ≤ max 1 (Event.deepest run.observed)
  started : run.observed.filterMap Event.opcode? = [] → run.observed = []

theorem Run.Delves.next {run : Run (List Event)} (h : run.Delves) (p : Program) :
    (run.next p Event.record).Delves := by
  cases he : run.ending with
  | some ending => rwa [next_ended he]
  | none =>
    have hdepth := h.depth
    have hturn := p.depth_turn_le_deepest run.state
    rw [next_going he, foldl_record]
    constructor
    · rw [Event.deepest_append]
      dsimp only
      omega
    · intro position opcode stack frames hm
      rw [Event.deepest_append]
      rcases List.mem_append.1 hm with hm | hm
      · have := h.told position opcode stack frames hm
        omega
      · obtain ⟨k, hk⟩ := List.mem_iff_getElem?.1 hm
        obtain ⟨-, rfl⟩ := Program.instruction_mem_turn hk
        have : 1 ≤ run.state.depth := Nat.le_add_left ..
        omega
    · intro hnone
      rw [List.filterMap_append, List.append_eq_nil_iff] at hnone
      dsimp only
      rcases p.events_turn run.state with hnil | ⟨i, rest, -, hevents, -⟩
      · rw [hnil, List.append_nil, h.started hnone.1]
      · rw [hevents] at hnone
        cases hnone.2

theorem Program.run_delves (p : Program) (meter : Meter) (turns : Nat) :
    (p.run meter turns Event.record []).Delves := by
  induction turns with
  | zero =>
    unfold run
    cases p.entry? <;> exact ⟨Nat.le_max_left 1 _, nofun, fun _ => rfl⟩
  | succ turns ih =>
    rw [run_succ]
    exact ih.next p

/-- The greatest depth of a run is that of its calls, or one without calls. -/
theorem Run.Delves.maxDepth {run : Run (List Event)} (h : run.Delves) :
    (run.observed.filterMap Event.depth?).foldr max 0 =
      if Event.instructions run.observed = 0 then 0 else max 1 (Event.deepest run.observed) := by
  rw [← Event.length_opcodes]
  split
  · rename_i hnone
    rw [h.started (List.length_eq_zero_iff.1 hnone)]
    rfl
  · rename_i hsome
    refine le_antisymm (List.max_le_of_forall_le _ _ fun depth hd => ?_) (max_le ?_ ?_)
    · obtain ⟨event, hm, hd⟩ := List.mem_filterMap.1 hd
      cases event with
      | instruction position opcode stack frames =>
        cases hd
        exact (h.told _ _ _ _ hm).2
      | call label d =>
        cases hd
        exact le_max_of_le_right (List.le_max_of_le (List.mem_filterMap.2 ⟨_, hm, rfl⟩) le_rfl)
      | ret | collection => cases hd
    · obtain ⟨opcode, ho⟩ := List.exists_mem_of_length_pos (Nat.pos_of_ne_zero hsome)
      obtain ⟨event, hm, ho⟩ := List.mem_filterMap.1 ho
      cases event with
      | instruction position opcode stack frames =>
        exact List.le_max_of_le (List.mem_filterMap.2 ⟨_, hm, rfl⟩) (h.told _ _ _ _ hm).1
      | call | ret | collection => cases ho
    · refine List.max_le_of_forall_le _ _ fun depth hd => ?_
      obtain ⟨event, hm, hd⟩ := List.mem_filterMap.1 hd
      refine List.le_max_of_le (List.mem_filterMap.2 ⟨event, hm, ?_⟩) le_rfl
      cases event <;> cases hd
      rfl

/-! ## Freed values -/

section Freed

variable {p : Program} {s : State}

theorem State.live_afterInstruction (hs : s.heap.FreeExact) (opcode : Opcode) :
    (s.afterInstruction opcode).2.heap.live +
      ((s.afterInstruction opcode).1.filterMap Event.freed?).sum = s.heap.live := by
  have hcounted : (if isCounted opcode then s.count else s).heap = s.heap := by split <;> rfl
  unfold afterInstruction
  generalize (if isCounted opcode then s.count else s) = t at hcounted
  dsimp only
  rw [← hcounted] at hs ⊢
  split
  · have hloses := State.loses_collect hs
    have hvalues := hloses.values
    rw [← hloses.exact.live_eq, ← hs.live_eq] at hvalues
    simpa [Event.freed?] using hvalues
  · rfl

theorem Control.freed_events (control : Control) (depth : Nat) :
    (control.events depth).filterMap Event.freed? = [] := by
  cases control <;> rfl

theorem Control.heap_apply (control : Control) (s : State) : (control.apply s).heap = s.heap := by
  cases control <;> rfl

/-- What a turn frees was there or is allocated by it. -/
theorem Program.live_turn_le (hs : s.heap.FreeExact) :
    (p.turn s).state.heap.live + ((p.turn s).events.filterMap Event.freed?).sum ≤
      s.heap.live + 2 * ((p.turn s).events.filterMap Event.opcode?).length := by
  have hexecuted := p.live_executed_le s
  rcases p.turn_cases s with ⟨-, hturn⟩ | ⟨i, -, ⟨cause, hturn⟩ | ⟨control, hturn⟩⟩
  · rw [hturn]
    exact Nat.le_add_right ..
  · rw [hturn]
    exact hexecuted
  · have hafter := State.live_afterInstruction (freeExact_executed (p := p) hs) i.opcode
    rw [hturn]
    simp only [List.filterMap_cons, List.filterMap_append, Event.freed?, Event.opcode?,
      Control.freed_events, Control.heap_apply, List.nil_append, List.length_cons]
    omega

end Freed

theorem Program.live_run_le (p : Program) (meter : Meter) (turns : Nat) :
    let run := p.run meter turns Event.record []
    run.state.heap.FreeExact ∧ run.state.heap.live + (run.observed.filterMap Event.freed?).sum ≤
      2 * (run.observed.filterMap Event.opcode?).length := by
  induction turns with
  | zero =>
    unfold run
    cases p.entry? <;> exact ⟨Heap.freeExact_empty, Nat.le_refl 0⟩
  | succ turns ih =>
    obtain ⟨hexact, hlive⟩ := ih
    dsimp only
    rw [run_succ]
    cases he : (p.run meter turns Event.record []).ending with
    | some ending =>
      rw [Run.next_ended he]
      exact ⟨hexact, hlive⟩
    | none =>
      have hturn := live_turn_le (p := p) hexact
      rw [Run.next_going he, foldl_record]
      refine ⟨freeExact_turn hexact, ?_⟩
      simp only [List.filterMap_append, List.sum_append, List.length_append]
      omega

/-! ## Aggregates -/

/-- A profile says of events what they add up to. -/
structure Profile.Aggregates (p : Profile) (events : List Event) : Prop where
  /-- The report lists the executed operations, each with the number of its instructions, -/
  listed : ∀ opcode n, (opcode, n) ∈ p.ranking ↔ n = events.countP (·.opcode? == some opcode) ∧ 0 < n
  /-- each once, -/
  once : (p.ranking.map Prod.fst).Nodup
  /-- and no two of them together. -/
  ordered : p.ranking.Pairwise Precedes
  total : (p.ranking.map Prod.snd).sum = p.instructions
  instructions : p.instructions = Event.instructions events
  calls : p.calls = (events.filterMap Event.entered?).length
  collections : p.collections = (events.filterMap Event.freed?).length
  /-- The freed slots are counted below a bound, which they cannot reach before half as many instructions. -/
  freed : p.freed = (events.filterMap Event.freed?).sum % Text.countBound
  unbounded : 2 * p.instructions < Text.countBound → p.freed = (events.filterMap Event.freed?).sum
  maxDepth : p.maxDepth = if Event.instructions events = 0 then 0 else max 1 (Event.deepest events)
  /-- The order in which operations were first executed does not matter. -/
  report : ∀ counts, counts.Perm p.counts → { p with counts }.report = p.report
  rearranged : ∀ events' : List Event, events'.Perm events → (events'.foldl observe start).report = p.report

/-- An unlimited recording holds the events of the run. -/
theorem Program.run_recording (p : Program) (meter : Meter) (turns : Nat) :
    (p.run meter turns Recording.observe (.start none)).observed.events.toList =
      (p.run meter turns Event.record []).observed := by
  rw [run_observe]
  exact (Recording.foldl_unlimited rfl _).trans (List.nil_append _)

theorem Program.run_profile (p : Program) (meter : Meter) (turns : Nat) :
    (p.run meter turns Profile.observe .start).observed.Sums (p.run meter turns Event.record []).observed := by
  rw [run_observe]
  exact Profile.sums_foldl _

/-- The profile of a run is the aggregate of the recording of the run. -/
theorem Profile.aggregates_recording (p : Program) (meter : Meter) (turns : Nat) :
    let profile := (p.run meter turns Profile.observe .start).observed
    let recording := (p.run meter turns Recording.observe (.start none)).observed
    profile.Aggregates recording.events.toList := by
  intro profile recording
  have hsums : profile.Sums (p.run meter turns Event.record []).observed := p.run_profile meter turns
  have hlive := (p.live_run_le meter turns).2
  rw [show recording.events.toList = _ from p.run_recording meter turns]
  rw [Event.length_opcodes] at hlive
  constructor
  · intro opcode n
    rw [hsums.mem_ranking_iff, List.count_filterMap]
  · exact hsums.nodup_ranking
  · exact hsums.strict_ranking
  · exact hsums.sum_ranking
  · rw [hsums.instructions, Event.length_opcodes]
  · exact hsums.calls
  · exact hsums.collections
  · exact hsums.freed
  · intro hbound
    rw [hsums.instructions, Event.length_opcodes] at hbound
    rw [hsums.freed]
    exact Nat.mod_eq_of_lt (by omega)
  · exact hsums.maxDepth.trans (p.run_delves meter turns).maxDepth
  · exact fun counts hcounts => report_congr hcounts rfl
  · exact fun events' hperm => hsums.report_eq (sums_foldl events') hperm

end CMinusMinus
