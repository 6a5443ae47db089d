/-!
# Stacks

A stack holds its items in a list, the top one first, and its height beside them, so that the height
of a high stack can be told at once. The two agree by the type, so the items alone decide what a stack
is.
-/

namespace CMinusMinus

/-- Items of which only the top ones can be taken. -/
structure Stack (α : Type) where
  /-- The items, the top one first. -/
  items : List α
  height : Nat
  height_eq : height = items.length
deriving DecidableEq

namespace Stack

variable {α : Type}

@[ext]
theorem ext {s t : Stack α} (h : s.items = t.items) : s = t := by
  obtain ⟨items, height, hs⟩ := s
  obtain ⟨items', height', ht⟩ := t
  subst hs ht h
  rfl

def empty : Stack α :=
  ⟨[], 0, rfl⟩

def push (s : Stack α) (a : α) : Stack α :=
  ⟨a :: s.items, s.height + 1, by rw [s.height_eq, List.length_cons]⟩

def pop? (s : Stack α) : Option (α × Stack α) :=
  match h : s.items with
  | [] => none
  | a :: items => some (a, ⟨items, s.height - 1, by rw [s.height_eq, h]; rfl⟩)

/-- The top two items, the upper one first, and the stack below them. -/
def popPair? (s : Stack α) : Option (α × α × Stack α) := do
  let (top, rest) ← s.pop?
  let (below, rest) ← rest.pop?
  return (top, below, rest)

/-- Gives every item its image under `f`. -/
def map (f : α → α) (s : Stack α) : Stack α :=
  ⟨s.items.map f, s.height, by rw [s.height_eq, List.length_map]⟩

/-! ## Items -/

@[simp]
theorem items_empty : (empty : Stack α).items = [] := rfl

@[simp]
theorem items_push (s : Stack α) (a : α) : (s.push a).items = a :: s.items := rfl

@[simp]
theorem items_map (f : α → α) (s : Stack α) : (s.map f).items = s.items.map f := rfl

/-- What is taken from a stack is what was put on it last. -/
theorem pop?_eq_some_iff {s t : Stack α} {a : α} : s.pop? = some (a, t) ↔ s = t.push a := by
  constructor
  · intro h
    unfold pop? at h
    split at h
    · cases h
    · rename_i b items hi
      cases h
      exact ext hi
  · rintro rfl
    rfl

/-- Nothing can be taken from the empty stack only. -/
theorem pop?_eq_none_iff {s : Stack α} : s.pop? = none ↔ s = empty := by
  constructor
  · intro h
    unfold pop? at h
    split at h
    · rename_i hi
      exact ext hi
    · cases h
  · rintro rfl
    rfl

end Stack

end CMinusMinus
