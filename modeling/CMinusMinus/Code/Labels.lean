/-!
# Label tables

A label names a position in a program. A table keeps its labels in the order of definition and
never holds a name twice; the type says so. Defining a name again keeps the first position, setting
it takes the new one, and neither moves the label in the order.
-/

namespace CMinusMinus

/-- Names with positions, in the order of definition. -/
structure Labels where
  entries : List (String × Nat)
  nodup : (entries.map Prod.fst).Nodup
deriving DecidableEq

namespace Labels

def empty : Labels :=
  ⟨[], List.nodup_nil⟩

instance : Inhabited Labels := ⟨empty⟩

def get? (labels : Labels) (name : String) : Option Nat :=
  labels.entries.lookup name

def contains (labels : Labels) (name : String) : Bool :=
  (labels.get? name).isSome

def marks (labels : Labels) (position : Nat) : Bool :=
  labels.entries.any (·.2 == position)

def size (labels : Labels) : Nat :=
  labels.entries.length

theorem get?_eq_none_iff {labels : Labels} {name : String} :
    labels.get? name = none ↔ name ∉ labels.entries.map Prod.fst := by
  unfold get?
  rw [List.lookup_eq_none_iff]
  constructor
  · intro h hm
    obtain ⟨entry, he, rfl⟩ := List.mem_map.1 hm
    simpa using h entry he
  · intro h entry he
    simp only [bne_iff_ne, ne_eq]
    rintro rfl
    exact h (List.mem_map.2 ⟨entry, he, rfl⟩)

/-! ## Definition -/

/-- Defines a label after the others; a label that is defined already stays as it is. -/
def define (labels : Labels) (name : String) (position : Nat) : Labels :=
  if h : labels.get? name = none then
    ⟨labels.entries ++ [(name, position)], by
      have := get?_eq_none_iff.1 h
      simp only [List.map_append, List.map_cons, List.map_nil]
      refine List.nodup_append.2 ⟨labels.nodup, by simp, ?_⟩
      intro a ha b hb
      rw [List.mem_singleton.1 hb]
      exact fun e => this (e ▸ ha)⟩
  else
    labels

/-- Gives every position its image under `f`; names and order stay. -/
def remap (labels : Labels) (f : Nat → Nat) : Labels :=
  ⟨labels.entries.map fun entry => (entry.1, f entry.2), by
    have : (labels.entries.map fun entry => (entry.1, f entry.2)).map Prod.fst
        = labels.entries.map Prod.fst := by simp [Function.comp_def]
    rw [this]
    exact labels.nodup⟩

/-- Sets the position of a label; a new label comes after the others. -/
def set (labels : Labels) (name : String) (position : Nat) : Labels :=
  if labels.contains name then
    ⟨labels.entries.map fun entry => if entry.1 = name then (name, position) else entry, by
      have : (labels.entries.map fun entry => if entry.1 = name then (name, position) else entry).map
          Prod.fst = labels.entries.map Prod.fst := by
        rw [List.map_map]
        refine List.map_congr_left fun entry _ => ?_
        by_cases h : entry.1 = name <;> simp [h]
      rw [this]
      exact labels.nodup⟩
  else
    labels.define name position

/-- The table of pairs in order; a name that occurs again keeps its first position. -/
def ofList (pairs : List (String × Nat)) : Labels :=
  pairs.foldl (fun labels pair => labels.define pair.1 pair.2) empty

end Labels

end CMinusMinus
