import CMinusMinus.Optimizer.Survivors
import Mathlib.Tactic.Common

/-!
# Where survivors stand

The origins of what a pass keeps rise, so halving the distance finds the number of survivors below a
position, and the survivor of an old instruction stands at that number.
-/

namespace CMinusMinus

/-! ## Counting by halves -/

/-- The numbers in an array rise. -/
def Rising (origins : Array Nat) : Prop :=
  ∀ (i j : Nat) (hi : i < origins.size) (hj : j < origins.size), i < j → origins[i] < origins[j]

theorem Rising.pairwise {origins : Array Nat} (hr : Rising origins) : origins.toList.Pairwise (· < ·) :=
  List.pairwise_iff_getElem.2 fun i j hi hj => hr i j (by simpa using hi) (by simpa using hj)

theorem countBelow_spec {origins : Array Nat} (hr : Rising origins) (bound low high : Nat)
    (inside : high ≤ origins.size) (hlh : low ≤ high)
    (hlow : ∀ (i : Nat) (hi : i < origins.size), i < low → origins[i] < bound)
    (hhigh : ∀ (i : Nat) (hi : i < origins.size), high ≤ i → bound ≤ origins[i]) :
    countBelow origins bound low high inside ≤ origins.size ∧
    ∀ (i : Nat) (hi : i < origins.size),
      origins[i] < bound ↔ i < countBelow origins bound low high inside := by
  fun_induction countBelow origins bound low high inside with
  | case1 low high inside hlt middle hm hb ih =>
    refine ih (by omega) (fun i hi hlt => ?_) hhigh
    rcases Nat.lt_or_eq_of_le (Nat.le_of_lt_succ hlt) with hlt | rfl
    · exact Nat.lt_trans (hr i middle hi hm hlt) hb
    · exact hb
  | case2 low high inside hlt middle hm hb ih =>
    refine ih (by omega) hlow (fun i hi hle => ?_)
    rcases Nat.lt_or_eq_of_le hle with hlt | rfl
    · exact Nat.le_trans (Nat.le_of_not_lt hb) (Nat.le_of_lt (hr middle i hm hi hlt))
    · exact Nat.le_of_not_lt hb
  | case3 low high inside hnlt =>
    obtain rfl : low = high := by omega
    refine ⟨inside, fun i hi => ⟨fun h => ?_, hlow i hi⟩⟩
    by_contra hle
    exact Nat.not_lt_of_le (hhigh i hi (Nat.le_of_not_lt hle)) h

/-- How many entries of a rising array are below a bound. -/
def below (origins : Array Nat) (bound : Nat) : Nat :=
  countBelow origins bound 0 origins.size (Nat.le_refl _)

theorem below_spec {origins : Array Nat} (hr : Rising origins) (bound : Nat) :
    below origins bound ≤ origins.size ∧
    ∀ (i : Nat) (_ : i < origins.size), origins[i] < bound ↔ i < below origins bound :=
  countBelow_spec hr bound 0 _ (Nat.le_refl _) (Nat.zero_le _)
    (fun i _ h => absurd h (Nat.not_lt_zero i)) fun _ hi h => absurd hi (Nat.not_lt_of_le h)

/-! ## Images of positions -/

/-- Where a position moves when a pass keeps `survivors`. -/
def movedTo (survivors : Array Survivor) (position : Nat) : Nat :=
  below (survivors.map (·.origin)) position

section Moved

variable {survivors : Array Survivor} (hr : Rising (survivors.map (·.origin)))
include hr

theorem movedTo_le_size (position : Nat) : movedTo survivors position ≤ survivors.size :=
  Nat.le_trans (below_spec hr position).1 (Nat.le_of_eq Array.size_map)

theorem origin_lt_iff (position : Nat) {i : Nat} (hi : i < survivors.size) :
    survivors[i].origin < position ↔ i < movedTo survivors position := by
  have h := (below_spec hr position).2 i (by simpa using hi)
  rwa [Array.getElem_map] at h

/-- A position moves to the number of survivors below it. -/
theorem movedTo_eq {position n : Nat} (hn : n ≤ survivors.size)
    (h : ∀ (i : Nat) (hi : i < survivors.size), survivors[i].origin < position ↔ i < n) :
    movedTo survivors position = n := by
  have hle := movedTo_le_size hr position
  rcases Nat.lt_trichotomy (movedTo survivors position) n with hlt | heq | hgt
  · have hi := Nat.lt_of_lt_of_le hlt hn
    have := (origin_lt_iff hr position hi).1 ((h _ hi).2 hlt)
    omega
  · exact heq
  · have hi := Nat.lt_of_lt_of_le hgt hle
    have := (h _ hi).1 ((origin_lt_iff hr position hi).2 hgt)
    omega

/-- A position moves to the number of survivors below it. -/
theorem movedTo_eq_countP (position : Nat) :
    movedTo survivors position = survivors.toList.countP (·.origin < position) := by
  have hle := movedTo_le_size hr position
  have hlt := fun i hi => origin_lt_iff hr position (i := i) hi
  generalize movedTo survivors position = n at hle hlt
  rw [← List.take_append_drop n survivors.toList, List.countP_append]
  have htake : (survivors.toList.take n).countP (·.origin < position) = n := by
    have hl : (survivors.toList.take n).length = n := List.length_take_of_le (by simpa using hle)
    refine (List.countP_eq_length.2 fun x hx => ?_).trans hl
    obtain ⟨i, hi, rfl⟩ := List.mem_take_iff_getElem.1 hx
    simp only [Array.length_toList] at hi
    simpa using (hlt i (by omega)).2 (by omega)
  have hdrop : (survivors.toList.drop n).countP (·.origin < position) = 0 := by
    refine List.countP_eq_zero.2 fun x hx => ?_
    obtain ⟨i, hi, rfl⟩ := List.mem_drop_iff_getElem.1 hx
    simp only [Array.length_toList] at hi
    have := (not_congr (hlt (n + i) (by omega))).2 (by omega)
    simpa using this
  rw [htake, hdrop, Nat.add_zero]

theorem movedTo_mono {a b : Nat} (h : a ≤ b) : movedTo survivors a ≤ movedTo survivors b := by
  rw [movedTo_eq_countP hr, movedTo_eq_countP hr]
  refine List.countP_mono_left fun s _ hs => ?_
  simp only [decide_eq_true_eq] at hs ⊢
  omega

theorem origin_lt_origin_iff {i j : Nat} (hi : i < survivors.size) (hj : j < survivors.size) :
    survivors[i].origin < survivors[j].origin ↔ i < j := by
  have hlt : ∀ (i j : Nat) (hi : i < survivors.size) (hj : j < survivors.size), i < j →
      survivors[i].origin < survivors[j].origin := by
    intro i j hi hj hij
    have h := hr i j (by simpa using hi) (by simpa using hj) hij
    rwa [Array.getElem_map, Array.getElem_map] at h
  refine ⟨fun h => ?_, hlt i j hi hj⟩
  rcases Nat.lt_trichotomy i j with hij | rfl | hij
  · exact hij
  · exact absurd h (Nat.lt_irrefl _)
  · exact absurd (Nat.lt_trans h (hlt j i hj hi hij)) (Nat.lt_irrefl _)

/-- A survivor stands where its origin moves. -/
theorem movedTo_origin {j : Nat} (hj : j < survivors.size) :
    movedTo survivors survivors[j].origin = j :=
  movedTo_eq hr (Nat.le_of_lt hj) fun _ hi => origin_lt_origin_iff hr hi hj

/-- What comes after an origin moves behind its survivor. -/
theorem movedTo_origin_succ {j : Nat} (hj : j < survivors.size) :
    movedTo survivors (survivors[j].origin + 1) = j + 1 := by
  refine movedTo_eq hr hj fun i hi => ?_
  have h := origin_lt_origin_iff hr hj hi
  omega

/-- A survivor stands where everything moves that is behind the survivors before it, up to its origin. -/
theorem movedTo_split {before behind : List Survivor} {s : Survivor}
    (h : before ++ s :: behind = survivors.toList) {position : Nat}
    (hbefore : ∀ t ∈ before, t.origin < position) (hs : position ≤ s.origin) :
    survivors[before.length]? = some s ∧ movedTo survivors position = before.length ∧
      movedTo survivors (s.origin + 1) = before.length + 1 := by
  have hsize : before.length < survivors.size := by
    rw [← Array.length_toList, ← h]
    simp
  have hget : survivors[before.length] = s := by
    simp [← Array.getElem_toList, ← h]
  refine ⟨hget ▸ Array.getElem?_eq_getElem hsize, ?_, hget ▸ movedTo_origin_succ hr hsize⟩
  refine movedTo_eq hr (Nat.le_of_lt hsize) fun i hi => ⟨fun hlt => ?_, fun hlt => hbefore _ ?_⟩
  · refine (origin_lt_origin_iff hr hi hsize).1 ?_
    rw [hget]
    exact Nat.lt_of_lt_of_le hlt hs
  · simp [← Array.getElem_toList, ← h, List.getElem_append_left, hlt]

/-- Past all origins there is no survivor. -/
theorem movedTo_past {position : Nat}
    (h : ∀ (i : Nat) (hi : i < survivors.size), survivors[i].origin < position) :
    movedTo survivors position = survivors.size :=
  movedTo_eq hr (Nat.le_refl _) fun i hi => iff_of_true (h i hi) hi

end Moved

/-! ## Programs of survivors -/

theorem List.lookup_map_snd {α β γ : Type} [BEq α] (f : β → γ) (xs : List (α × β)) (a : α) :
    (xs.map fun x => (x.1, f x.2)).lookup a = (xs.lookup a).map f := by
  induction xs with
  | nil => rfl
  | cons x xs ih =>
    obtain ⟨key, value⟩ := x
    simp only [List.map_cons, List.lookup_cons]
    cases a == key with
    | true => rfl
    | false => exact ih

theorem Labels.get?_remap (labels : Labels) (f : Nat → Nat) (name : String) :
    (labels.remap f).get? name = (labels.get? name).map f :=
  List.lookup_map_snd f labels.entries name

theorem Labels.marks_iff {labels : Labels} {position : Nat} :
    labels.marks position = true ↔ ∃ name, (name, position) ∈ labels.entries := by
  simp [marks]

theorem Labels.marks_of_get? {labels : Labels} {name : String} {position : Nat}
    (h : labels.get? name = some position) : labels.marks position = true := by
  obtain ⟨before, after, he, -⟩ := List.lookup_eq_some_iff.1 h
  rw [marks, he]
  simp

namespace Program

variable (survivors : Array Survivor) (labels : Labels)

theorem get?_ofSurvivors (label : String) :
    (ofSurvivors survivors labels).labels.get? label =
      (labels.get? label).map (movedTo survivors) :=
  Labels.get?_remap labels _ label

theorem getElem?_ofSurvivors (i : Nat) :
    (ofSurvivors survivors labels).instructions[i]? = survivors[i]?.map (·.instruction) :=
  Array.getElem?_map

theorem size_ofSurvivors : (ofSurvivors survivors labels).size = survivors.size :=
  Array.size_map

/-- No label is past the end. -/
theorem label_le_ofSurvivors {survivors : Array Survivor} (hr : Rising (survivors.map (·.origin)))
    (labels : Labels) {entry : String × Nat} (hm : entry ∈ (ofSurvivors survivors labels).labels.entries) :
    entry.2 ≤ (ofSurvivors survivors labels).size := by
  obtain ⟨old, -, rfl⟩ := List.mem_map.1 hm
  rw [size_ofSurvivors]
  exact movedTo_le_size hr old.2

theorem entry?_ofSurvivors (p : Program) :
    Program.entry? (ofSurvivors survivors p.labels) = p.entry?.map (movedTo survivors) :=
  get?_ofSurvivors ..

theorem isSome_entry?_ofSurvivors (p : Program) :
    (Option.isSome <| Program.entry? <| ofSurvivors survivors p.labels) = p.entry?.isSome := by
  rw [entry?_ofSurvivors, Option.isSome_map]

end Program

end CMinusMinus
