/-!
# Depth-first search

The vertices of a graph are the numbers below the size of an array of marks. A search marks every
vertex that can be reached from those it starts with, unless the edges of one of them cannot be
told; the edges are then the error of the search. Numbers that are no vertices are passed over.

A search ends because each round either marks a vertex for the first time or shortens the list of
those still to be visited.
-/

namespace CMinusMinus.Graph

/-- Marks what can be reached from the vertices in `work`, visited from the front; what is `seen`
already is not visited again. -/
def search {ε : Type} (next : Nat → Except ε (List Nat)) (seen : Array Bool) (work : List Nat) :
    Except ε (Array Bool) :=
  match work with
  | [] => .ok seen
  | v :: work =>
    if hv : v < seen.size then
      if hs : seen[v] then
        search next seen work
      else
        match next v with
        | .ok targets => search next (seen.set v true) (targets ++ work)
        | .error e => .error e
    else
      search next seen work
termination_by (seen.count false, work.length)
decreasing_by
  · right
    simp
  · left
    have hf : seen[v] = false := Bool.not_eq_true _ ▸ hs
    have hm : false ∈ seen := hf ▸ Array.getElem_mem hv
    have := Array.count_pos_iff.2 hm
    simp only [Array.count_set, hf]
    simp
    omega
  · right
    simp

/-- Marks what can be reached from `start` in a graph whose edges are all known. -/
def reach (next : Nat → List Nat) (size : Nat) (start : List Nat) : Array Bool :=
  match search (ε := Empty) (fun v => .ok (next v)) (Array.replicate size false) start with
  | .ok seen => seen

end CMinusMinus.Graph
