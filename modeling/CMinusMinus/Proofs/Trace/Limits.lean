import CMinusMinus.Trace.Listing
import CMinusMinus.Trace.Recording
import Mathlib.Data.List.Basic
import Mathlib.Tactic.Common

/-!
# Limited observers

A recording with a limit holds as many of the first events. A listing with a limit has a line for each event
up to the instruction that reaches the limit, the notice behind it, and nothing after the notice. The notice
comes behind an instruction, so a listing that is limited to no instructions lists one, like a listing that is
limited to one.
-/

namespace CMinusMinus

namespace Event

/-- Whether an instruction is told of. -/
def isInstruction : Event → Bool
  | instruction _ _ _ _ => true
  | _ => false

def instructions (events : List Event) : Nat :=
  events.countP isInstruction

@[simp]
theorem instructions_nil : instructions [] = 0 := rfl

theorem instructions_cons (event : Event) (events : List Event) :
    instructions (event :: events) = instructions events + if event.isInstruction then 1 else 0 :=
  List.countP_cons ..

/-- Where there are more than `n` instructions, there is one with `n` before it. -/
theorem exists_instruction {n : Nat} {events : List Event} (h : n < instructions events) :
    ∃ before last after, events = before ++ last :: after ∧ last.isInstruction = true ∧
      instructions before = n := by
  induction events generalizing n with
  | nil => simp at h
  | cons event events ih =>
    rw [instructions_cons] at h
    cases he : event.isInstruction with
    | false =>
      simp only [he, Bool.false_eq_true, if_false, Nat.add_zero] at h
      obtain ⟨before, last, after, rfl, hlast, hbefore⟩ := ih h
      exact ⟨event :: before, last, after, rfl, hlast, by simp [instructions_cons, he, hbefore]⟩
    | true =>
      cases n with
      | zero => exact ⟨[], event, events, rfl, he, rfl⟩
      | succ n =>
        simp only [he, if_true] at h
        obtain ⟨before, last, after, rfl, hlast, hbefore⟩ := ih (n := n) (by omega)
        exact ⟨event :: before, last, after, rfl, hlast, by simp [instructions_cons, he, hbefore]⟩

theorem instructions_append (before after : List Event) :
    instructions (before ++ after) = instructions before + instructions after :=
  List.countP_append ..

end Event

/-! ## Recordings -/

namespace Recording

variable {r : Recording}

theorem observe_full (h : r.isFull = true) (event : Event) : r.observe event = r :=
  if_pos h

theorem observe_open (h : r.isFull = false) (event : Event) :
    r.observe event = { r with events := r.events.push event } :=
  if_neg (by simp [h])

theorem foldl_full (h : r.isFull = true) (events : List Event) : events.foldl observe r = r := by
  induction events with
  | nil => rfl
  | cons event events ih => rw [List.foldl_cons, observe_full h, ih]

/-- A recording without a limit holds all events. -/
theorem foldl_unlimited (h : r.limit = none) (events : List Event) :
    (events.foldl observe r).events.toList = r.events.toList ++ events := by
  induction events generalizing r with
  | nil => simp
  | cons event events ih =>
    have hopen : r.isFull = false := by simp [isFull, h]
    rw [List.foldl_cons, observe_open hopen, ih (by exact h)]
    simp

/-- A recording holds the events that it has room for. -/
theorem foldl_limited {limit : Nat} (h : r.limit = some limit) (hsize : r.events.size ≤ limit)
    (events : List Event) :
    (events.foldl observe r).events.toList = r.events.toList ++ events.take (limit - r.events.size) := by
  induction events generalizing r with
  | nil => simp
  | cons event events ih =>
    by_cases hfull : r.events.size = limit
    · have hfull' : r.isFull = true := by simp [isFull, h, hfull]
      rw [foldl_full hfull', hfull, Nat.sub_self, List.take_zero, List.append_nil]
    · have hopen : r.isFull = false := by simp [isFull, h]; omega
      have hroom : limit - r.events.size = limit - (r.events.size + 1) + 1 := by omega
      rw [List.foldl_cons, observe_open hopen, ih (by exact h) (by simp; omega), hroom,
        List.take_succ_cons]
      simp

end Recording

/-! ## Listings -/

namespace Listing

/-- The lines of events. -/
def lines (events : List Event) : String :=
  String.join (events.map line)

theorem lines_nil : lines [] = "" := rfl

theorem lines_append (before after : List Event) : lines (before ++ after) = lines before ++ lines after := by
  unfold lines
  rw [List.map_append, String.join_append]

theorem lines_singleton (event : Event) : lines [event] = line event := by
  simp [lines, String.join]

/-- What a listing without a limit makes of events. -/
def unlimited (events : List Event) : String :=
  (events.foldl observe (start none)).text

variable {l : Listing}

theorem observe_stopped (h : l.stopped = true) (event : Event) : l.observe event = l :=
  if_pos h

theorem foldl_stopped (h : l.stopped = true) (events : List Event) : events.foldl observe l = l := by
  induction events with
  | nil => rfl
  | cons event events ih => rw [List.foldl_cons, observe_stopped h, ih]

theorem observe_other (h : l.stopped = false) {event : Event} (he : event.isInstruction = false) :
    l.observe event = { l with text := l.text ++ line event } := by
  cases event with
  | instruction => cases he
  | _ => exact if_neg (by simp [h])

theorem observe_instruction (h : l.stopped = false) {event : Event} (he : event.isInstruction = true) :
    l.observe event = l.addInstruction (line event) := by
  cases event with
  | instruction => exact if_neg (by simp [h])
  | _ => cases he

/-- An instruction before the limit has a line. -/
theorem addInstruction_going (line : String) (hroom : ∀ limit, l.limit = some limit → l.count + 1 < limit) :
    l.addInstruction line = { l with text := l.text ++ line, count := l.count + 1 } := by
  unfold addInstruction
  dsimp only
  cases hl : l.limit with
  | none => rfl
  | some limit => exact if_neg (Nat.not_le_of_lt (hroom limit hl))

/-- The instruction that reaches the limit has a line, and the notice comes behind it. -/
theorem addInstruction_last (line : String) {limit : Nat} (hl : l.limit = some limit)
    (hlast : limit ≤ l.count + 1) : l.addInstruction line =
      { l with text := l.text ++ line ++ notice limit, count := l.count + 1, stopped := true } := by
  simp [addInstruction, hl, hlast]

/-- Before the limit is reached, every event has a line. -/
theorem foldl_going (h : l.stopped = false) {events : List Event}
    (hroom : ∀ limit, l.limit = some limit → l.count + Event.instructions events < max limit 1) :
    events.foldl observe l =
      { l with text := l.text ++ lines events, count := l.count + Event.instructions events } := by
  induction events generalizing l with
  | nil => simp [lines_nil]
  | cons event events ih =>
    rw [Event.instructions_cons] at hroom ⊢
    rw [List.foldl_cons, ← List.singleton_append, lines_append, lines_singleton]
    cases he : event.isInstruction with
    | false =>
      simp only [he, Bool.false_eq_true, if_false, Nat.add_zero] at hroom ⊢
      rw [observe_other h he, ih (by exact h) (by exact hroom)]
      simp only [String.append_assoc]
    | true =>
      simp only [he, if_true] at hroom ⊢
      have hnext : ∀ limit, l.limit = some limit → l.count + 1 < limit := by
        intro limit hl
        have := hroom limit hl
        omega
      rw [observe_instruction h he, addInstruction_going _ hnext, ih (by exact h)]
      · simp only [String.append_assoc, Nat.add_comm (Event.instructions events) 1, Nat.add_assoc]
      · intro limit hl
        have := hroom limit hl
        simp only
        omega

theorem foldl_start {limit? : Option Nat} {events : List Event}
    (h : ∀ limit, limit? = some limit → Event.instructions events < max limit 1) :
    events.foldl observe (start limit?) = ⟨lines events, limit?, Event.instructions events, false⟩ := by
  rw [foldl_going rfl (by simpa [start] using h)]
  simp [start]

/-- A listing without a limit has a line for every event. -/
theorem unlimited_eq (events : List Event) : unlimited events = lines events := by
  rw [unlimited, foldl_start (by simp)]

theorem text_going {limit : Nat} {events : List Event} (h : Event.instructions events < max limit 1) :
    (events.foldl observe (start (some limit))).text = lines events := by
  rw [foldl_start (by simpa using h)]

/-- At the instruction that reaches the limit the listing ends. -/
theorem foldl_reached {limit : Nat} {before : List Event} {last : Event} (hlast : last.isInstruction = true)
    (hcount : Event.instructions before + 1 = max limit 1) :
    (before ++ [last]).foldl observe (start (some limit)) =
      ⟨lines (before ++ [last]) ++ notice limit, some limit, max limit 1, true⟩ := by
  have hbefore : Event.instructions before < max limit 1 := by omega
  rw [List.foldl_append, foldl_start (by simpa using hbefore), List.foldl_cons, List.foldl_nil,
    observe_instruction rfl hlast, addInstruction_last _ rfl (by simp only; omega), lines_append,
    lines_singleton, ← hcount]

end Listing

/-! ## Both -/

/-- Limits are exact. A recording holds the first events, as many as its limit says. A listing has the lines
of no more instructions than its limit says, or of one if it says none; what it shows is what a listing
without a limit shows of the events up to the instruction that reaches the limit, and the notice, or of all
events if there are fewer instructions; and nothing comes behind the notice. -/
theorem Event.limits_exact (limit : Nat) (events : List Event) :
    let recorded := events.foldl Recording.observe (.start (some limit))
    let listed := events.foldl Listing.observe (.start (some limit))
    recorded.events.toList = events.take limit ∧ recorded.events.size = min limit events.length ∧
    (∃ shown, shown <+: events ∧ instructions shown ≤ max limit 1 ∧
      (listed.text = Listing.lines shown ∨ listed.text = Listing.lines shown ++ Listing.notice limit)) ∧
    (instructions events < max limit 1 → listed.text = Listing.unlimited events) ∧
    (∀ before last after, events = before ++ last :: after → last.isInstruction = true →
      instructions before + 1 = max limit 1 →
      listed.text = Listing.unlimited (before ++ [last]) ++ Listing.notice limit) ∧
    (max limit 1 ≤ instructions events → ∀ more : List Event, more.foldl Listing.observe listed = listed) := by
  intro recorded listed
  have hrecorded : recorded.events.toList = events.take limit := by
    rw [Recording.foldl_limited (r := .start (some limit)) rfl (Nat.zero_le limit)]
    rfl
  have hreached : ∀ before last after, events = before ++ last :: after → last.isInstruction = true →
      instructions before + 1 = max limit 1 →
      listed = ⟨Listing.lines (before ++ [last]) ++ Listing.notice limit, some limit, max limit 1, true⟩ := by
    rintro before last after rfl hlast hcount
    show (before ++ last :: after).foldl _ _ = _
    rw [← List.singleton_append, ← List.append_assoc, List.foldl_append,
      Listing.foldl_reached hlast hcount, Listing.foldl_stopped rfl]
  have hlast : max limit 1 ≤ instructions events → ∃ before last after, events = before ++ last :: after ∧
      last.isInstruction = true ∧ instructions before + 1 = max limit 1 := by
    intro h
    obtain ⟨before, last, after, he, hlast, hbefore⟩ :=
      exists_instruction (show max limit 1 - 1 < instructions events by omega)
    exact ⟨before, last, after, he, hlast, by omega⟩
  refine ⟨hrecorded, ?_, ?_, fun h => ?_, fun before last after he hl hcount => ?_, fun h more => ?_⟩
  · rw [← Array.length_toList, hrecorded, List.length_take]
  · rcases Nat.lt_or_ge (instructions events) (max limit 1) with h | h
    · exact ⟨events, List.prefix_rfl, by omega, .inl (Listing.text_going h)⟩
    · obtain ⟨before, last, after, he, hl, hcount⟩ := hlast h
      refine ⟨before ++ [last], ⟨after, by simp [he]⟩, ?_, .inr ?_⟩
      · rw [instructions_append, instructions_cons, instructions_nil, hl]
        simp [← hcount]
      · rw [hreached before last after he hl hcount]
  · rw [Listing.unlimited_eq]
    exact Listing.text_going h
  · rw [hreached before last after he hl hcount, Listing.unlimited_eq]
  · obtain ⟨before, last, after, he, hl, hcount⟩ := hlast h
    rw [hreached before last after he hl hcount]
    exact Listing.foldl_stopped (by rfl) more

/-- A call and a collection among three instructions, the second of which reaches the limit. -/
theorem Event.limits_exact_call :
    let before := [instruction 0 .call 0 1, call "f" 2]
    let last := instruction 4 .push 0 2
    let after := [collection 0 1, instruction 5 .ret 1 2]
    let events := before ++ last :: after
    last.isInstruction = true ∧ instructions before + 1 = max 2 1 ∧
    (events.foldl Recording.observe (.start (some 2))).events.toList = before ∧
    (events.foldl Listing.observe (.start (some 2))).text =
      Listing.unlimited (before ++ [last]) ++ Listing.notice 2 := by
  intro before last after events
  obtain ⟨hrecorded, -, -, -, hlisted, -⟩ := limits_exact 2 events
  exact ⟨rfl, rfl, hrecorded, hlisted before last after rfl rfl rfl⟩

/-- A listing that is limited to no instructions has the line of one. -/
theorem Event.limit_zero_passed :
    let events := [instruction 0 .push 0 1]
    let listed := events.foldl Listing.observe (.start (some 0))
    listed.text = Listing.lines events ++ Listing.notice 0 ∧
    ¬ ∃ shown, shown <+: events ∧ instructions shown ≤ 0 ∧
      (listed.text = Listing.lines shown ∨ listed.text = Listing.lines shown ++ Listing.notice 0) := by
  intro events listed
  have htext : listed.text = Listing.lines events ++ Listing.notice 0 :=
    congrArg Listing.text (@Listing.foldl_reached 0 [] (instruction 0 .push 0 1) rfl rfl)
  refine ⟨htext, ?_⟩
  rintro ⟨shown, hprefix, hnone, hshown⟩
  have hnil : shown = [] := by
    cases shown with
    | nil => rfl
    | cons event rest =>
      -- the only event that is there is an instruction
      obtain ⟨rfl, -⟩ := List.cons_prefix_cons.1 hprefix
      simp [instructions_cons, isInstruction] at hnone
  rw [hnil, htext] at hshown
  rcases hshown with h | h
  · exact absurd h (by decide)
  · exact absurd h (by decide)

end CMinusMinus
