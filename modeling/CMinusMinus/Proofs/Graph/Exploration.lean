import CMinusMinus.Graph.Search
import Mathlib.Tactic.Common

/-!
# What a search marks

The marks of a search are closed: what it starts with is marked, and so is whatever the edges of a newly
marked vertex lead to.
-/

namespace CMinusMinus.Graph

variable {ε : Type} {next : Nat → Except ε (List Nat)}

/-- What a search adds to the vertices in `seen`. -/
structure Explored (next : Nat → Except ε (List Nat)) (seen : Array Bool) (work : List Nat)
    (marks : Array Bool) : Prop where
  size_eq : marks.size = seen.size
  keeps : ∀ v : Nat, seen[v]? = some true → marks[v]? = some true
  visits : ∀ v ∈ work, v < seen.size → marks[v]? = some true
  follows : ∀ v : Nat, marks[v]? = some true → seen[v]? ≠ some true →
    ∃ targets, next v = .ok targets ∧ ∀ t ∈ targets, t < seen.size → marks[t]? = some true

theorem explored_of_search {seen : Array Bool} {work : List Nat} {marks : Array Bool}
    (h : search next seen work = .ok marks) : Explored next seen work marks := by
  fun_induction search next seen work with
  | case1 seen =>
    cases h
    exact ⟨rfl, fun _ h => h, by simp, fun v h hn => absurd h hn⟩
  | case2 seen v work hv hs ih =>
    have hw := ih h
    refine ⟨hw.size_eq, hw.keeps, ?_, hw.follows⟩
    intro w hm hl
    rcases List.mem_cons.1 hm with rfl | hm
    · exact hw.keeps w (by simp [hv, hs])
    · exact hw.visits w hm hl
  | case3 seen v work hv hs targets hn ih =>
    have hw := ih h
    have hsize := hw.size_eq
    have hvisits := hw.visits
    have hfollows := hw.follows
    have hkeeps := hw.keeps
    simp only [Array.size_set] at hsize hvisits hfollows
    have hv' : marks[v]? = some true := hkeeps v (by simp [hv])
    -- the vertex is marked first, and the targets of its edges are still to be visited
    refine ⟨hsize, ?_, ?_, ?_⟩
    · intro w hw
      refine hkeeps w ?_
      rw [Array.getElem?_set]
      split
      · rfl
      · exact hw
    · intro w hm hl
      rcases List.mem_cons.1 hm with rfl | hm
      · exact hv'
      · exact hvisits w (List.mem_append_right _ hm) hl
    · intro w hm hn'
      by_cases he : v = w
      · subst he
        exact ⟨targets, hn, fun t ht hl => hvisits t (List.mem_append_left _ ht) hl⟩
      · exact hfollows w hm (by rwa [Array.getElem?_set_ne hv he])
  | case4 => cases h
  | case5 seen v work hv ih =>
    have hw := ih h
    refine ⟨hw.size_eq, hw.keeps, ?_, hw.follows⟩
    intro w hm hl
    rcases List.mem_cons.1 hm with rfl | hm
    · exact absurd hl hv
    · exact hw.visits w hm hl

end CMinusMinus.Graph
