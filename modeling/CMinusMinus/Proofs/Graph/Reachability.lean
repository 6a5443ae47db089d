import CMinusMinus.Proofs.Graph.Exploration

/-!
# What can be reached

A search marks exactly what can be reached from where it starts, and it fails exactly if the edges of
something that can be reached cannot be told.
-/

namespace CMinusMinus.Graph

variable {ε : Type} {next : Nat → Except ε (List Nat)} {size : Nat} {start : List Nat}

/-- The vertices below `size` to which edges lead from those in `start`. -/
inductive Reaches (next : Nat → Except ε (List Nat)) (size : Nat) (start : List Nat) : Nat → Prop where
  | start {v : Nat} (hs : v ∈ start) (hv : v < size) : Reaches next size start v
  | step {v t : Nat} {targets : List Nat} (h : Reaches next size start v) (hn : next v = .ok targets)
      (ht : t ∈ targets) (hl : t < size) : Reaches next size start t

theorem Reaches.lt_size {v : Nat} (h : Reaches next size start v) : v < size := by
  cases h with
  | start _ hv => exact hv
  | step _ _ _ hl => exact hl

/-- What a search marks can be reached, and so can the vertex at which it fails. -/
theorem reaches_of_search {seen : Array Bool} {work : List Nat} (hsize : seen.size = size)
    (hseen : ∀ v : Nat, seen[v]? = some true → Reaches next size start v)
    (hwork : ∀ v ∈ work, v < size → Reaches next size start v) :
    (∀ marks, search next seen work = .ok marks →
      ∀ v : Nat, marks[v]? = some true → Reaches next size start v) ∧
    ∀ e, search next seen work = .error e → ∃ v, Reaches next size start v ∧ next v = .error e := by
  fun_induction search next seen work with
  | case1 seen => exact ⟨fun _ h => Except.ok.inj h ▸ hseen, fun _ h => by cases h⟩
  | case2 seen v work hv hs ih => exact ih hsize hseen fun w hm => hwork w (List.mem_cons_of_mem v hm)
  | case3 seen v work hv hs targets hn ih =>
    have hreach : Reaches next size start v := hwork v (List.mem_cons_self ..) (hsize ▸ hv)
    refine ih (by rw [Array.size_set, hsize]) (fun w hm => ?_) fun w hm hl => ?_
    · rw [Array.getElem?_set] at hm
      split at hm
      · rename_i he
        exact he ▸ hreach
      · exact hseen w hm
    · rcases List.mem_append.1 hm with hm | hm
      · exact hreach.step hn hm hl
      · exact hwork w (List.mem_cons_of_mem v hm) hl
  | case4 seen v work hv hs e hn =>
    refine ⟨fun _ h => (by cases h), fun e' he => ?_⟩
    cases he
    exact ⟨v, hwork v (List.mem_cons_self ..) (hsize ▸ hv), hn⟩
  | case5 seen v work hv ih => exact ih hsize hseen fun w hm => hwork w (List.mem_cons_of_mem v hm)

theorem getElem?_replicate_false (n v : Nat) : (Array.replicate n false)[v]? ≠ some true := by
  simp [Array.getElem?_replicate]

theorem reaches_of_search_start :
    (∀ marks, search next (Array.replicate size false) start = .ok marks →
      ∀ v : Nat, marks[v]? = some true → Reaches next size start v) ∧
    ∀ e, search next (Array.replicate size false) start = .error e →
      ∃ v, Reaches next size start v ∧ next v = .error e :=
  reaches_of_search Array.size_replicate (fun v hv => absurd hv (getElem?_replicate_false size v))
    fun _ hm hl => .start hm hl

/-- The marks of a search are what can be reached. -/
theorem mem_search_iff {marks : Array Bool}
    (h : search next (Array.replicate size false) start = .ok marks) (v : Nat) :
    marks[v]? = some true ↔ Reaches next size start v := by
  have hexplored := explored_of_search h
  refine ⟨reaches_of_search_start.1 marks h v, fun hr => ?_⟩
  induction hr with
  | start hs hv => exact hexplored.visits _ hs (by rwa [Array.size_replicate])
  | step _ hn ht hl ih =>
    obtain ⟨targets, hn', hall⟩ := hexplored.follows _ ih (getElem?_replicate_false size _)
    cases hn.symm.trans hn'
    exact hall _ ht (by rwa [Array.size_replicate])

theorem exists_search_iff : (∃ marks, search next (Array.replicate size false) start = .ok marks) ↔
    ∀ v, Reaches next size start v → ∃ targets, next v = .ok targets := by
  constructor
  · rintro ⟨marks, h⟩ v hr
    obtain ⟨targets, hn, -⟩ := (explored_of_search h).follows v ((mem_search_iff h v).2 hr)
      (getElem?_replicate_false size v)
    exact ⟨targets, hn⟩
  · intro hknown
    cases h : search next (Array.replicate size false) start with
    | ok marks => exact ⟨marks, rfl⟩
    | error e =>
      obtain ⟨v, hr, hn⟩ := reaches_of_search_start.2 e h
      obtain ⟨targets, hn'⟩ := hknown v hr
      cases hn.symm.trans hn'

end CMinusMinus.Graph
