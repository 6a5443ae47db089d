import CMinusMinus.Proofs.Ideal.Lockstep
import CMinusMinus.Proofs.Ideal.Straight
import Mathlib

/-!
# Folding

The run of a folded program goes through the states of the old run in which control is at the start of a
group. Where a group was folded, one instruction does what all of the group did, and allocates less.
-/

namespace CMinusMinus

/-! ## Where groups stand -/

/-- A position is the start of a group, or past the end. -/
def Starts (p : Program) (kept : Array Survivor) (k : Nat) : Prop :=
  p.size ≤ k ∨ ∃ j < kept.size, k = startOf kept.toList j

namespace Grouped

variable {p : Program} {kept : Array Survivor} (hg : Grouped p kept.toList p.size)
include hg

omit hg in
theorem getElem?_kept {j : Nat} (hj : j < kept.size) : kept.toList[j]? = some kept[j] := by
  simp [hj]

omit hg in
theorem startOf_kept {j : Nat} (hj : j < kept.size) :
    startOf kept.toList (j + 1) = kept[j].origin + 1 :=
  startOf_succ (getElem?_kept hj)

theorem le_of_startOf {i j : Nat} (hij : i ≤ j) (hj : j ≤ kept.size) :
    startOf kept.toList i ≤ startOf kept.toList j :=
  hg.startOf_mono hij (by simpa using hj)

theorem startOf_le_size {j : Nat} (hj : j ≤ kept.size) : startOf kept.toList j ≤ p.size :=
  hg.startOf_le (by simpa using hj)

theorem startOf_size : startOf kept.toList kept.size = p.size := by
  rw [← Array.length_toList]
  exact hg.stop

theorem startOf_le_origin {j : Nat} (hj : j < kept.size) : startOf kept.toList j ≤ kept[j].origin :=
  hg.start_le j _ (getElem?_kept hj)

theorem rising : Rising (kept.map (·.origin)) := by
  intro i j hi hj hij
  rw [Array.size_map] at hi hj
  rw [Array.getElem_map, Array.getElem_map]
  have hstart := startOf_kept hi
  have hmono := hg.le_of_startOf hij (Nat.le_of_lt hj)
  have horigin := hg.startOf_le_origin hj
  rw [Nat.succ_eq_add_one] at hmono
  omega

/-- The start of a group moves to its number. -/
theorem movedTo_startOf {j : Nat} (hj : j ≤ kept.size) :
    movedTo kept (startOf kept.toList j) = j := by
  refine movedTo_eq hg.rising hj fun i hi => ⟨fun hlt => ?_, fun hij => ?_⟩
  · by_contra hge
    have hmono := hg.le_of_startOf (Nat.le_of_not_lt hge) (Nat.le_of_lt hi)
    have horigin := hg.startOf_le_origin hi
    omega
  · have hstart := startOf_kept hi
    have hmono := hg.le_of_startOf hij hj
    rw [Nat.succ_eq_add_one] at hmono
    omega

theorem movedTo_past {k : Nat} (hk : p.size ≤ k) : movedTo kept k = kept.size := by
  refine CMinusMinus.movedTo_past hg.rising fun i hi => ?_
  have hstart := startOf_kept hi
  have hle := hg.startOf_le_size hi
  rw [Nat.succ_eq_add_one] at hle
  omega

theorem starts_startOf {j : Nat} (hj : j ≤ kept.size) : Starts p kept (startOf kept.toList j) := by
  rcases Nat.lt_or_eq_of_le hj with hj | rfl
  · exact .inr ⟨j, hj, rfl⟩
  · exact .inl (Nat.le_of_eq hg.startOf_size.symm)

/-- No label points into a group behind its start. -/
theorem starts_label {label : String} {k : Nat} (hk : p.labels.get? label = some k) :
    Starts p kept k := by
  have hmarks : p.labels.marks k = true := Labels.marks_of_get? hk
  rcases Nat.lt_or_ge k p.size with hlt | hge
  · have hle := movedTo_le_size hg.rising k
    have horigins := fun i hi => origin_lt_iff hg.rising k (i := i) hi
    generalize movedTo kept k = j at hle horigins
    -- the group of position `k` is the one with number `j`
    have hstart : startOf kept.toList j ≤ k := by
      cases j with
      | zero => exact Nat.zero_le k
      | succ i =>
        rw [startOf_kept hle]
        exact (horigins i hle).2 (Nat.lt_succ_self i)
    rcases Nat.lt_or_eq_of_le hle with hj | rfl
    · have horigin : k ≤ kept[j].origin :=
        Nat.le_of_not_lt fun h => Nat.lt_irrefl j ((horigins j hj).1 h)
      rcases Nat.lt_or_eq_of_le hstart with hinside | heq
      · have := hg.unlabelled j _ (getElem?_kept hj) k hinside horigin
        rw [hmarks] at this
        cases this
      · exact .inr ⟨j, hj, heq.symm⟩
    · rw [hg.startOf_size] at hstart
      omega
  · exact .inl hge

/-- The code of a group, which ends where the next one starts. -/
theorem group {j : Nat} (hj : j < kept.size) : ∃ code,
    Replaces kept[j].instruction code ∧ Ideal.CodeAt p (startOf kept.toList j) code ∧
      startOf kept.toList j + code.length = startOf kept.toList (j + 1) := by
  have hle := hg.startOf_le_origin hj
  have hsize := hg.startOf_le_size hj
  rw [Nat.succ_eq_add_one, startOf_kept hj] at hsize
  refine ⟨_, hg.replaces j _ (getElem?_kept hj), Ideal.codeAt_segment, ?_⟩
  rw [p.length_segment hsize, startOf_kept hj]
  omega

end Grouped

/-! ## Runs without a heap -/

namespace Ideal

/-- The state `u` of the folded program is where `t` is in the old one, at the start of a group, and control
returns to starts of groups only. -/
structure Aligned (p : Program) (kept : Array Survivor) (k : Nat) (t u : State) : Prop extends
    Moved (movedTo kept) k t u where
  starts : Starts p kept t.position
  returns : ∀ r ∈ t.returns, Starts p kept r

/-- Runs of the old program and of the folded one that have come to the same. A fault arises at an
instruction that was moved as it is. -/
structure Agrees (p : Program) (kept : Array Survivor) (r r' : State × Option Ending) : Prop where
  ending : r'.2 = r.2.map (Ending.move (movedTo kept))
  cheaper : ∃ k, Cheaper k r.1 r'.1
  outermost : r.2 = some .completed → r'.1.outermost.bindings = r.1.outermost.bindings
  place : ∀ cause position, r.2 = some (.failed ⟨cause, some position⟩) →
    (Program.ofSurvivors kept p.labels).instructions[movedTo kept position]? =
      p.instructions[position]?

theorem Moved.outermost {f : Nat → Nat} {k : Nat} {t u : State} (h : Moved f k t u) :
    u.outermost.bindings = t.outermost.bindings := by
  rw [State.outermost, State.outermost, h.callers, List.getLastD_eq_getLast?, List.getLastD_eq_getLast?,
    List.getLast?_map]
  cases t.callers.getLast? with
  | none => exact h.bindings
  | some frame => rfl

theorem Moved.advance {f : Nat → Nat} {k : Nat} {t u : State} (h : Moved f k t u)
    (hn : f (t.position + 1) = f t.position + 1) (control : Control) :
    Moved f k (advance control t) (advance (control.move f) u) := by
  cases control with
  | next =>
    refine ⟨⟨h.memory, h.stack, h.bindings, h.output, h.meter⟩, ?_, h.returnAddress, h.callers⟩
    show u.position + 1 = f (t.position + 1)
    rw [h.position, hn]
  | halt => exact h
  | _ => exact ⟨⟨h.memory, h.stack, h.bindings, h.output, h.meter⟩, rfl, h.returnAddress, h.callers⟩

theorem advance_returns (control : Control) (t : State) : (advance control t).returns = t.returns := by
  cases control <;> rfl

theorem Cheaper.pays {k : Nat} {t u : State} (h : Cheaper k t u) (ht : Pays t) : Pays u := by
  obtain ⟨meter, memory, stack, frame, callers, position, output⟩ := u
  unfold Pays at ht ⊢
  rw [run_count, h.meter] at ht
  rw [run_count]
  dsimp only at ht ⊢
  cases meter with
  | none => rfl
  | some m =>
    simp only [Option.map_some] at ht ⊢
    rcases (m.charge k).allocate_cases with ⟨limit, n, he⟩ | hok
    · rw [he] at ht
      cases ht
    · rw [Meter.allocate_of_charge hok]

section Aligned

variable {p : Program} {kept : Array Survivor} {k : Nat} {t u : State}
  (hg : Grouped p kept.toList p.size) (h : Aligned p kept k t u)
include hg h

/-- Past the end both runs end. -/
theorem Aligned.turn_past (hp : p.size ≤ t.position) :
    turn p t = (t, some .completed) ∧
      turn (.ofSurvivors kept p.labels) u = (u, some .completed) := by
  have hp' : p.instructions[t.position]? = none := Array.getElem?_eq_none hp
  have hu : (Program.ofSurvivors kept p.labels).instructions[u.position]? = none := by
    rw [Program.getElem?_ofSurvivors, h.position, hg.movedTo_past hp,
      Array.getElem?_eq_none (Nat.le_refl _)]
    rfl
  rw [turn, hp', turn, hu]
  exact ⟨rfl, rfl⟩

omit h in
/-- Control stays at the starts of groups. -/
theorem starts_flow {i : Instruction} {k : Nat} {before after : List Nat} {control : Control}
    (hn : Starts p kept (k + 1)) (hk : Starts p kept k) (hb : ∀ r ∈ before, Starts p kept r)
    (hflow : Flow p i k before control after) :
    (∀ r ∈ after, Starts p kept r) ∧
      ∀ t : State, t.position = k → Starts p kept (advance control t).position := by
  cases hflow with
  | next =>
    refine ⟨hb, fun t ht => ?_⟩
    subst ht
    exact hn
  | jump _ _ hl => exact ⟨hb, fun _ _ => hg.starts_label hl⟩
  | enter _ _ hl =>
    refine ⟨fun r hr => ?_, fun _ _ => hg.starts_label hl⟩
    rcases List.mem_cons.1 hr with rfl | hr
    · exact hn
    · exact hb r hr
  | leave => exact ⟨fun r hr => hb r (by simp [hr]), fun _ _ => hb _ (List.mem_cons_self ..)⟩
  | halt =>
    refine ⟨hb, fun t ht => ?_⟩
    subst ht
    exact hk

/-- At the start of a group the folded program has what was kept of the group. -/
theorem Aligned.fetch {j : Nat} (hj : j < kept.size) (ht : t.position = startOf kept.toList j) :
    u.position = j ∧ (Program.ofSurvivors kept p.labels).instructions[u.position]? =
      some kept[j].instruction := by
  have hposition : u.position = j := by rw [h.position, ht, hg.movedTo_startOf (Nat.le_of_lt hj)]
  refine ⟨hposition, ?_⟩
  rw [hposition, Program.getElem?_ofSurvivors, Array.getElem?_eq_getElem hj, Option.map_some]

/-- An instruction that was kept does what it did. -/
theorem Aligned.turn_same (ha : Affords p t) {j : Nat} (hj : j < kept.size)
    (ht : t.position = startOf kept.toList j) {i : Instruction} (hi : kept[j].instruction = i)
    (hp : p.instructions[t.position]? = some i)
    (hn : t.position + 1 = startOf kept.toList (j + 1)) :
    (∃ ending, (turn p t).2 = some ending) ∧
      Agrees p kept (turn p t) (turn (.ofSurvivors kept p.labels) u) ∨
    ∃ t' u', turn p t = (t', none) ∧ turn (.ofSurvivors kept p.labels) u = (u', none) ∧
      Aligned p kept k t' u' := by
  obtain ⟨hposition, hu⟩ := h.fetch hg hj ht
  rw [hi] at hu
  have hf : movedTo kept t.position = u.position := h.position.symm
  have hfn : movedTo kept (t.position + 1) = movedTo kept t.position + 1 := by
    rw [hf, hn, hg.movedTo_startOf hj, hposition]
  have htracks := tracks_execute (Program.get?_ofSurvivors kept p.labels) i h.toMoved hfn
  have hnext : Starts p kept (t.position + 1) := by
    rw [hn]
    exact hg.starts_startOf hj
  unfold turn
  rw [hp, hu]
  dsimp only
  cases hr : (execute i p).run t with
  | error cause t' =>
    rw [hr] at htracks
    cases hr' : (execute i (.ofSurvivors kept p.labels)).run u with
    | ok d u' =>
      rw [hr'] at htracks
      exact absurd htracks (ha.not_allocation hp hr)
    | error cause' u' =>
      rw [hr'] at htracks
      rcases htracks with hc | ⟨rfl, hc⟩
      · exact absurd hc (ha.not_allocation hp hr)
      · refine .inl ⟨⟨_, rfl⟩, ?_, ⟨k, hc⟩, nofun, fun _ _ he => ?_⟩
        · rw [h.position]
          rfl
        · cases he
          rw [hf, hu, hp]
  | ok control t' =>
    rw [hr] at htracks
    cases hr' : (execute i (.ofSurvivors kept p.labels)).run u with
    | error cause' u' =>
      rw [hr'] at htracks
      exact htracks.elim
    | ok d u' =>
      rw [hr'] at htracks
      obtain ⟨rfl, hmoved, hposition, hflow⟩ := htracks
      obtain ⟨hreturns, hstarts⟩ := starts_flow hg hnext h.starts h.returns hflow
      have hfn' : movedTo kept (t'.position + 1) = movedTo kept t'.position + 1 := by
        rw [hposition, hfn]
      have haligned : Aligned p kept k (advance control t') (advance (control.move (movedTo kept)) u') := by
        refine ⟨hmoved.advance hfn' control, hstarts t' hposition, ?_⟩
        rw [advance_returns]
        exact hreturns
      cases control with
      | halt => exact .inl ⟨⟨_, rfl⟩, rfl, ⟨k, hmoved.toCheaper⟩, fun _ => hmoved.outermost, nofun⟩
      | _ => exact .inr ⟨_, _, rfl, rfl, haligned⟩

/-- One instruction does what code that computes a constant did. -/
theorem Aligned.turn_constant (ha : Affords p t) {j : Nat} (hj : j < kept.size)
    (ht : t.position = startOf kept.toList j) {code : List Instruction} {value : Int}
    (hi : kept[j].instruction = ⟨.push, [Text.numeral value]⟩) (hc : Computes code value)
    (hcode : CodeAt p t.position code)
    (hn : t.position + code.length = startOf kept.toList (j + 1)) :
    0 < code.length ∧ ∃ k', runFrom p code.length t = (t.computed code.length value, none) ∧
      turn (.ofSurvivors kept p.labels) u = (u.computed 1 value, none) ∧
      Aligned p kept k' (t.computed code.length value) (u.computed 1 value) := by
  obtain ⟨hpays, hpos, hrun⟩ := run_computes hc hcode ha
  obtain ⟨hposition, hu⟩ := h.fetch hg hj ht
  rw [hi] at hu
  have he : (execute ⟨.push, [Text.numeral value]⟩ (.ofSurvivors kept p.labels)).run u =
      (pushInt value >>= fun _ => pure Control.next).run u := by
    show (pushArgument _ >>= fun _ => pure Control.next).run u = _
    rw [pushArgument, Text.readInt?_numeral]
  refine ⟨hpos, k + (code.length - 1), hrun, turn_pushInt hu u he (h.toCheaper.pays hpays), ?_⟩
  have hnext : movedTo kept (t.position + code.length) = u.position + 1 := by
    rw [hn, hg.movedTo_startOf hj, hposition]
  have hmeter : t.meter.map (Meter.charge code.length) =
      (u.meter.map (Meter.charge 1)).map (Meter.charge (k + (code.length - 1))) := by
    rw [h.meter, Option.map_map, Option.map_map]
    refine congrArg (u.meter.map ·) (funext fun meter => ?_)
    simp only [Function.comp_apply, Meter.charge_charge]
    congr 1
    omega
  refine ⟨⟨⟨h.memory, congrArg (Datum.int value :: ·) h.stack, h.bindings, h.output, hmeter⟩, hnext.symm,
    h.returnAddress, h.callers⟩, ?_, h.returns⟩
  show Starts p kept (t.position + code.length)
  rw [hn]
  exact hg.starts_startOf hj

/-- Both runs come to their end, or the folded program takes one turn to the next start of a group and the
old one at least as many. -/
theorem Aligned.step (ha : Affords p t) :
    (∃ ending, (turn p t).2 = some ending) ∧
      Agrees p kept (turn p t) (turn (.ofSurvivors kept p.labels) u) ∨
    ∃ c k' t' u', 0 < c ∧ runFrom p c t = (t', none) ∧
      turn (.ofSurvivors kept p.labels) u = (u', none) ∧ Aligned p kept k' t' u' := by
  rcases h.starts with hpast | ⟨j, hj, ht⟩
  · obtain ⟨hp, hq⟩ := h.turn_past hg hpast
    rw [hp, hq]
    exact .inl ⟨⟨_, rfl⟩, rfl, ⟨k, h.toCheaper⟩, fun _ => h.outermost, nofun⟩
  · obtain ⟨code, hreplaces, hcode, hn⟩ := hg.group hj
    rw [← ht] at hcode hn
    generalize hi : kept[j].instruction = i at hreplaces
    cases hreplaces with
    | same =>
      rcases h.turn_same hg ha hj ht hi hcode.head hn with hended | ⟨t', u', hp, hq, h'⟩
      · exact .inl hended
      · exact .inr ⟨1, k, t', u', Nat.one_pos, (runFrom_one p t).trans hp, hq, h'⟩
    | constant hc =>
      obtain ⟨hpos, k', hp, hq, h'⟩ := h.turn_constant hg ha hj ht hi hc hcode hn
      exact .inr ⟨code.length, k', _, _, hpos, hp, hq, h'⟩

omit h

/-- Where the old run has ended, the folded one has come to the same in no more turns. -/
theorem Aligned.catches_up {k n : Nat} {t u : State} (h : Aligned p kept k t u) (ha : Affords p t)
    {ending : Ending} (hn : (runFrom p n t).2 = some ending) :
    ∃ m ≤ n, Agrees p kept (runFrom p n t) (runFrom (.ofSurvivors kept p.labels) m u) := by
  induction n using Nat.strongRecOn generalizing k t u with
  | ind n ih =>
    obtain ⟨n, rfl⟩ : ∃ l, n = l + 1 := by
      cases n with
      | zero => cases hn
      | succ n => exact ⟨n, rfl⟩
    rcases h.step hg ha with ⟨⟨ending', he⟩, hagrees⟩ | ⟨c, k', t', u', hpos, hp, hq, h'⟩
    · refine ⟨1, Nat.le_add_left 1 n, ?_⟩
      rw [runFrom_turn_ended he, runFrom_one]
      exact hagrees
    · -- a group that ended before its last instruction would have ended the run
      obtain ⟨l, hl⟩ : ∃ l, n + 1 = c + l := by
        refine Nat.exists_eq_add_of_le (Nat.le_of_not_lt fun hlt => ?_)
        have hended := runFrom_ended hn (Nat.le_of_lt hlt)
        rw [hp] at hended
        rw [← hended] at hn
        cases hn
      rw [hl, runFrom_add hp] at hn
      obtain ⟨m, hm, hagrees⟩ := ih l (by omega) h' (ha.later hp) hn
      refine ⟨m + 1, by omega, ?_⟩
      rw [hl, runFrom_add hp, runFrom_turn hq]
      exact hagrees

/-- Wherever the folded run is, the old one has come to the same in at least as many turns. -/
theorem Aligned.goes_ahead {k : Nat} {t u : State} (h : Aligned p kept k t u) (ha : Affords p t)
    (m : Nat) : ∃ n ≥ m, Agrees p kept (runFrom p n t) (runFrom (.ofSurvivors kept p.labels) m u) := by
  induction m generalizing k t u with
  | zero => exact ⟨0, Nat.le_refl _, rfl, ⟨k, h.toCheaper⟩, nofun, nofun⟩
  | succ m ih =>
    rcases h.step hg ha with ⟨⟨ending, he⟩, hagrees⟩ | ⟨c, k', t', u', hpos, hp, hq, h'⟩
    · refine ⟨m + 1, Nat.le_refl _, ?_⟩
      have he' : (turn (.ofSurvivors kept p.labels) u).2 = some (ending.move (movedTo kept)) := by
        rw [hagrees.ending, he]
        rfl
      rw [runFrom_turn_ended he, runFrom_turn_ended he']
      exact hagrees
    · obtain ⟨n, hn, hagrees⟩ := ih h' (ha.later hp)
      refine ⟨c + n, by omega, ?_⟩
      rw [runFrom_add hp, runFrom_turn hq]
      exact hagrees

end Aligned

end Ideal

/-! ## Runs -/

theorem Fault.Cause.IsArena.isAllocation {cause : Cause} (h : cause.IsArena) : cause.IsAllocation := by
  obtain ⟨slots, -, hc⟩ := h
  exact ⟨_, _, hc⟩

/-- How many allocations were counted. -/
def Meter.allocations (m : Meter) : Nat :=
  (m.counts?.map Prod.fst).getD 0

theorem Meter.allocations_unfreed (m : Meter) : m.unfreed.allocations = m.allocations := by
  cases m <;> rfl

theorem Meter.allocations_charge (m : Meter) (count : Nat) :
    m.allocations ≤ (m.charge count).allocations := by
  cases m with
  | plain => exact Nat.le_refl _
  | counting limits allocated freed => exact Nat.le_add_right allocated count

namespace Program

/-- A run of the folded program has come to the same as a run of the old one, whose positions are moved by
`f`: it has the same ending, printed text, final stack and final variables, and no more allocations. The
instruction at which a fault arises was moved as it is. -/
structure Folds {σ τ : Type} (p : Program) (f : Nat → Nat) (run : Run σ) (folded : Run τ) : Prop where
  ending : folded.ending = run.ending.map (Ending.move f)
  output : folded.state.output = run.state.output
  allocations : folded.state.meter.allocations ≤ run.state.meter.allocations
  outcome : run.ending = some .completed → ∃ stack globals stats stats',
    run.outcome? = some (.ok ⟨stack, globals, stats⟩) ∧
      folded.outcome? = some (.ok ⟨stack, globals, stats'⟩)
  place : ∀ cause position, run.ending = some (.failed ⟨cause, some position⟩) →
    p.fold.instructions[f position]? = p.instructions[position]?

section Folds

variable {σ τ : Type} {p : Program}

theorem folds_of_agrees {r r' : Ideal.State × Option Ending} {run : Run σ} {folded : Run τ}
    (h : Ideal.Agrees p (Folding.run p).kept r r') {address address' : Nat → Nat}
    (he : run.ending = r.2) (hp : Picture true address run.state r.1)
    (he' : folded.ending = r'.2) (hp' : Picture true address' folded.state r'.1) :
    p.Folds (movedTo (Folding.run p).kept) run folded := by
  obtain ⟨k, hc⟩ := h.cheaper
  have hending : folded.ending = run.ending.map (Ending.move (movedTo (Folding.run p).kept)) := by
    rw [he', h.ending, he]
  refine ⟨hending, ?_, ?_, fun hcompleted => ?_, fun cause position hf => ?_⟩
  · rw [← hp'.output, hc.output, hp.output]
  · have hmeter := hc.meter
    rw [hp.meter, hp'.meter] at hmeter
    have hunfreed : run.state.meter.unfreed = folded.state.meter.unfreed.charge k := by
      simpa using hmeter
    rw [← run.state.meter.allocations_unfreed, hunfreed, ← folded.state.meter.allocations_unfreed]
    exact Meter.allocations_charge _ k
  · have hobjects : r'.1.objects = r.1.objects := by
      rw [Ideal.State.objects, Ideal.State.objects, hc.stack, hc.memory]
    have hglobals : r'.1.globals = r.1.globals := by
      rw [Ideal.State.globals, Ideal.State.globals, h.outermost (he ▸ hcompleted), hc.memory]
    have hp := hp.outcome_eq
    have hp' := hp'.outcome_eq
    rw [hobjects, hglobals] at hp'
    refine ⟨r.1.objects, r.1.globals, run.state.heap.stats run.state.collections,
      folded.state.heap.stats folded.state.collections, ?_, ?_⟩
    · rw [Run.outcome?, hcompleted]
      exact congrArg some hp
    · rw [Run.outcome?, hending, hcompleted]
      exact congrArg some hp'
  · exact h.place cause position (he ▸ hf)

end Folds

theorem entry?_fold (p : Program) : p.fold.entry? = p.entry?.map (movedTo (Folding.run p).kept) :=
  get?_ofSurvivors ..

/-- Both runs start at the start of a group. -/
theorem aligned_initial {p : Program} (hg : Grouped p (Folding.run p).kept.toList p.size) {entry : Nat}
    (he : p.entry? = some entry) (meter : Meter) :
    Ideal.Aligned p (Folding.run p).kept 0 (.initial entry p.size (some meter))
      (.initial (movedTo (Folding.run p).kept entry) p.fold.size (some meter)) := by
  have hsize : p.fold.size = movedTo (Folding.run p).kept p.size := by
    rw [hg.movedTo_past (Nat.le_refl _)]
    exact size_ofSurvivors ..
  rw [hsize]
  refine ⟨⟨⟨rfl, rfl, rfl, rfl, ?_⟩, rfl, rfl, rfl⟩, hg.starts_label he, fun r hr => ?_⟩
  · exact congrArg some (Meter.charge_zero _).symm
  · obtain rfl : r = p.size := by simpa [Ideal.State.returns, Ideal.State.initial] using hr
    exact .inl (Nat.le_refl _)

/-- Folding constants preserves every run that is not stopped by the limit of allocations. Where the old run
has ended, the folded one has come to the same in no more turns; wherever the folded run is, the old one
has come to the same in at least as many. -/
theorem run_fold {σ τ : Type} {p : Program}
    (ha : ∀ i ∈ p.instructions, i.opcode.accepts i.args.length = true) (meter : Meter)
    (observe : σ → Event → σ) (start : σ) (observe' : τ → Event → τ) (start' : τ)
    (hp : ∀ turns fault, (p.run meter turns observe start).ending = some (.failed fault) →
      ¬ fault.cause.IsAllocation)
    (hq : ∀ turns fault, (p.fold.run meter turns observe' start').ending = some (.failed fault) →
      ¬ fault.cause.IsArena) :
    let f := fun position => (Folding.run p).kept.toList.countP (·.origin < position)
    (∀ turns, (p.run meter turns observe start).ending.isSome → ∃ turns' ≤ turns,
      p.Folds f (p.run meter turns observe start) (p.fold.run meter turns' observe' start')) ∧
    ∀ turns', ∃ turns ≥ turns',
      p.Folds f (p.run meter turns observe start) (p.fold.run meter turns' observe' start') := by
  have hg := Folding.grouped_run ha
  have hf : (fun position => (Folding.run p).kept.toList.countP (·.origin < position)) =
      movedTo (Folding.run p).kept :=
    funext fun position => (movedTo_eq_countP hg.rising position).symm
  have he' := p.entry?_fold
  dsimp only
  rw [hf]
  cases he : p.entry? with
  | none =>
    rw [he] at he'
    -- without an entry neither run takes a turn
    have hfolds : ∀ turns, p.Folds (movedTo (Folding.run p).kept)
        (p.run meter turns observe start) (p.fold.run meter turns observe' start') := by
      intro turns
      simp only [run, he, he']
      refine ⟨rfl, rfl, Nat.le_refl _, fun hcompleted => ?_, fun _ _ hfault => ?_⟩
      · cases hcompleted
      · simp at hfault
    exact ⟨fun turns _ => ⟨turns, Nat.le_refl _, hfolds _⟩, fun turns => ⟨turns, Nat.le_refl _, hfolds _⟩⟩
  | some entry =>
    rw [he, Option.map_some] at he'
    -- both runs are pictured by ideal ones, which are compared in turn
    have hold := fun turns => run_pictured true he meter observe start fun fault hfault =>
      mt Fault.Cause.IsArena.isAllocation (hp turns fault hfault)
    have hnew := fun turns => run_pictured true he' meter observe' start' (hq turns)
    simp only [if_true] at hold hnew
    have haligned := aligned_initial hg he meter.unfreed
    have haffords : Ideal.Affords p (.initial entry p.size (some meter.unfreed)) := by
      intro turns fault hfault
      rw [← (hold turns).1] at hfault
      exact hp turns fault hfault
    refine ⟨fun turns hended => ?_, fun turns' => ?_⟩
    · obtain ⟨hending, address, hpicture⟩ := hold turns
      rw [hending] at hended
      obtain ⟨ending, hsome⟩ := Option.isSome_iff_exists.1 hended
      obtain ⟨turns', hle, hagrees⟩ := haligned.catches_up hg haffords hsome
      obtain ⟨hending', address', hpicture'⟩ := hnew turns'
      exact ⟨turns', hle, folds_of_agrees hagrees hending hpicture hending' hpicture'⟩
    · obtain ⟨turns, hge, hagrees⟩ := haligned.goes_ahead hg haffords turns'
      obtain ⟨hending, address, hpicture⟩ := hold turns
      obtain ⟨hending', address', hpicture'⟩ := hnew turns'
      exact ⟨turns, hge, folds_of_agrees hagrees hending hpicture hending' hpicture'⟩

/-- A program that prints a sum of constants, with room for the sum and both of its operands. -/
theorem run_fold_sum :
    let p : Program := ⟨#[⟨.push, ["1"]⟩, ⟨.push, ["2"]⟩, ⟨.binary .add, []⟩, ⟨.print, []⟩, ⟨.ret, ["0"]⟩],
      .ofList [("main", 0)]⟩
    let meter := Meter.ofLimits ⟨some 3, some 1, none, none⟩
    let observe : List Event → Event → List Event := fun seen event => seen ++ [event]
    let f := fun position => (Folding.run p).kept.toList.countP (·.origin < position)
    (∀ i ∈ p.instructions, i.opcode.accepts i.args.length = true) ∧
    (∀ turns fault, (p.run meter turns observe []).ending = some (.failed fault) →
      ¬ fault.cause.IsAllocation) ∧
    (∀ turns fault, (p.fold.run meter turns observe []).ending = some (.failed fault) →
      ¬ fault.cause.IsArena) ∧
    (∀ turns, (p.run meter turns observe []).ending.isSome → ∃ turns' ≤ turns,
      p.Folds f (p.run meter turns observe []) (p.fold.run meter turns' observe [])) ∧
    ∀ turns', ∃ turns ≥ turns',
      p.Folds f (p.run meter turns observe []) (p.fold.run meter turns' observe []) := by
  intro p meter observe f
  have ha : ∀ i ∈ p.instructions, i.opcode.accepts i.args.length = true := by decide
  have hold : (p.run meter 5 observe []).ending = some .completed := by cbv
  have hnew : (p.fold.run meter 3 observe []).ending = some .completed := by cbv
  have hp : ∀ turns fault, (p.run meter turns observe []).ending = some (.failed fault) →
      ¬ fault.cause.IsAllocation := by
    intro turns fault hfault
    cases ending_unique hold hfault
  have hq : ∀ turns fault, (p.fold.run meter turns observe []).ending = some (.failed fault) →
      ¬ fault.cause.IsArena := by
    intro turns fault hfault
    cases ending_unique hnew hfault
  exact ⟨ha, hp, hq, run_fold ha meter observe [] observe [] hp hq⟩

end Program

end CMinusMinus
