import Resumption.Proofs.Analysis.Edges
import Resumption.Proofs.Subroutine.Paths

/-!
# Bodies of subroutines

The body of a subroutine is found by visiting instructions until there is nothing new. So it holds
the entry, and with an instruction it holds every place where control can go from there inside of the
subroutine (`Source.body_isBody`).
-/

namespace Resumption.Subroutine.Source

variable {s : Source} {reached : List Nat}

/-- Control stays among these instructions, apart from calls and returns. -/
structure IsBody (s : Source) (body : List Nat) : Prop where
  /-- in the order of the code -/
  increasing : body.Pairwise (· < ·)
  /-- there are instructions -/
  instructions : ∀ index ∈ body, ∃ i, s.code.instructions[index]? = some i
  /-- the next instruction is among them, after a call as well -/
  next : ∀ index ∈ body, ∀ i, s.code.instructions[index]? = some i →
    (i.fallsThrough = true ∨ ∃ l, i = .jsr l) → index + 1 ∈ body
  /-- targets are among them -/
  targets : ∀ index ∈ body, ∀ i, s.code.instructions[index]? = some i → (∀ l, i ≠ .jsr l) →
    ∀ l ∈ i.targets, ∃ j ∈ body, s.positions.find l = .ok j

theorem IsBody.nodup {body : List Nat} (h : s.IsBody body) : body.Nodup :=
  h.increasing.imp Nat.ne_of_lt

/-- Places that are all different and before an end are not more than the end says. -/
theorem length_visited {visited : List Nat} {n : Nat} (hnodup : visited.Nodup)
    (hvisited : ∀ index ∈ visited, index < n) : visited.length ≤ n := by
  have hsub : visited ⊆ List.range n := fun index hindex =>
    List.mem_range.mpr (hvisited index hindex)
  simpa using (List.subperm_of_subset hnodup hsub).length_le

/-- All places where control can go from an instruction are among those given. -/
def Closed (s : Source) (reached : List Nat) (index : Nat) : Prop :=
  ∃ i next, s.code.instructions[index]? = some i ∧ s.successors index i = .ok next ∧
    ∀ j ∈ next, j ∈ reached

/-- Every round visits an instruction that was not visited before, so there are rounds enough, and in
the end everything was visited that was met on the way. -/
theorem reach_closed {fuel : Nat} {toVisit visited : List Nat}
    (h : s.reach fuel toVisit visited = .ok reached) (hnodup : visited.Nodup)
    (hvisited : ∀ index ∈ visited, index < s.code.instructions.size)
    (hfuel : s.code.instructions.size < fuel + visited.length) :
    (∀ index ∈ toVisit, index ∈ reached) ∧ (∀ index ∈ visited, index ∈ reached) ∧
      ∀ index ∈ reached, index ∈ visited ∨ s.Closed reached index := by
  -- Visited indices are distinct and in the code, so there are at most as many rounds as
  -- instructions. What is visited stays so, and its successors are visited or wait.
  induction fuel generalizing toVisit visited with
  | zero =>
    have hle := length_visited hnodup hvisited
    omega
  | succ fuel ih =>
    have hdropped : ∀ index ∈ toVisit, index ∈ visited ∨
        index ∈ toVisit.dropWhile visited.contains := by
      intro index hindex
      rw [← List.takeWhile_append_dropWhile (p := visited.contains) (l := toVisit)] at hindex
      rcases List.mem_append.mp hindex with hindex | hindex
      · exact .inl (by simpa using List.mem_takeWhile_imp hindex)
      · exact .inr hindex
    simp only [reach] at h
    split at h
    · rename_i hnone
      cases h
      refine ⟨fun index hindex => ?_, fun _ hindex => hindex, fun _ hindex => .inl hindex⟩
      rcases hdropped index hindex with hindex | hindex
      · exact hindex
      · rw [hnone] at hindex
        cases hindex
    · rename_i index rest hsome
      have hnew : index ∉ visited := by
        have hhead := List.head?_dropWhile_not visited.contains toVisit
        rw [hsome] at hhead
        simpa using hhead
      split at h
      · cases h
      · rename_i i hi
        obtain ⟨next, hnext, h⟩ := Except.bind_ok.mp h
        have hlt : index < s.code.instructions.size := (Array.getElem?_eq_some_iff.mp hi).1
        obtain ⟨hto, hdone, hclosed⟩ := ih h (List.nodup_cons.mpr ⟨hnew, hnodup⟩)
          (List.forall_mem_cons.mpr ⟨hlt, hvisited⟩) (by rw [List.length_cons]; omega)
        refine ⟨fun j hj => ?_, fun j hj => hdone j (List.mem_cons_of_mem _ hj), fun j hj => ?_⟩
        · rcases hdropped j hj with hj | hj
          · exact hdone j (List.mem_cons_of_mem _ hj)
          · rw [hsome] at hj
            rcases List.mem_cons.mp hj with rfl | hj
            · exact hdone _ (List.mem_cons_self ..)
            · exact hto j (List.mem_append_right _ hj)
        · rcases hclosed j hj with hj | hj
          · rcases List.mem_cons.mp hj with rfl | hj
            · exact .inr ⟨i, next, hi, hnext, fun k hk => hto k (List.mem_append_left _ hk)⟩
            · exact .inl hj
          · exact .inr hj

theorem position_ok {l : Label} {j : Nat} (h : s.position l = .ok j) :
    s.positions.find l = .ok j :=
  liftError_ok h

/-- What the successors of an instruction are. -/
theorem successors_spec {index : Nat} {i : Instruction} {next : List Nat}
    (h : s.successors index i = .ok next) :
    ((i.fallsThrough = true ∨ ∃ l, i = .jsr l) → index + 1 ∈ next) ∧
      ((∀ l, i ≠ .jsr l) → ∀ l ∈ i.targets, ∃ j ∈ next, s.positions.find l = .ok j) := by
  unfold successors at h
  split at h
  · refine ⟨?_, fun _ l hl => by cases hl⟩
    rintro (hfalls | ⟨l, hl⟩)
    · cases hfalls
    · cases hl
  · rename_i l
    cases h
    exact ⟨fun _ => List.mem_singleton_self _, fun hjsr => absurd rfl (hjsr l)⟩
  · rename_i hret hjsr
    obtain ⟨targets, htargets, h⟩ := Except.bind_ok.mp h
    cases h
    refine ⟨?_, fun _ l hl => ?_⟩
    · rintro (hfalls | ⟨l, rfl⟩)
      · rw [if_pos hfalls]
        exact List.mem_append_left _ (List.mem_singleton_self _)
      · exact absurd rfl (hjsr l)
    · obtain ⟨j, hj, hposition⟩ := (mem_of_forall₂ (mapM_ok_iff.mp htargets)).1 l hl
      exact ⟨j, List.mem_append_right _ (List.mem_reverse.mpr hj), position_ok hposition⟩

/-- **Bodies.** The entry is in the body, and control stays there. -/
theorem body_isBody {start : Nat} {body : List Nat} (h : s.body start = .ok body) :
    start ∈ body ∧ s.IsBody body := by
  obtain ⟨reached, hreach, h⟩ := Except.bind_ok.mp h
  cases h
  obtain ⟨hstart, -, hclosed⟩ := reach_closed hreach List.nodup_nil (List.forall_mem_nil _)
    (by rw [List.length_nil]; omega)
  have hclosed : ∀ index ∈ reached, s.Closed reached index := fun index hindex =>
    (hclosed index hindex).resolve_left List.not_mem_nil
  have hmem : ∀ {index}, index ∈ reached → index ∈ (List.range s.code.instructions.size).filter
      reached.contains := by
    intro index hindex
    obtain ⟨i, -, hi, -⟩ := hclosed index hindex
    exact List.mem_filter.mpr ⟨List.mem_range.mpr (Array.getElem?_eq_some_iff.mp hi).1,
      by simpa using hindex⟩
  have hof : ∀ {index}, index ∈ (List.range s.code.instructions.size).filter reached.contains →
      index ∈ reached := fun hindex => by simpa using (List.mem_filter.mp hindex).2
  refine ⟨hmem (hstart start (List.mem_singleton_self _)), ?_, ?_, ?_, ?_⟩
  · exact List.pairwise_lt_range.filter _
  · intro index hindex
    obtain ⟨i, -, hi, -⟩ := hclosed index (hof hindex)
    exact ⟨i, hi⟩
  · intro index hindex i hi hfalls
    obtain ⟨i', next, hi', hnext, hall⟩ := hclosed index (hof hindex)
    obtain rfl := Option.some.inj (hi.symm.trans hi')
    exact hmem (hall _ ((successors_spec hnext).1 hfalls))
  · intro index hindex i hi hjsr l hl
    obtain ⟨i', next, hi', hnext, hall⟩ := hclosed index (hof hindex)
    obtain rfl := Option.some.inj (hi.symm.trans hi')
    obtain ⟨j, hj, hfound⟩ := (successors_spec hnext).2 hjsr l hl
    exact ⟨j, hmem (hall j hj), hfound⟩

/-- The subroutines that are called: where they start, and their bodies. -/
def subroutines (s : Source) : List (Nat × List Nat) :=
  s.code.instructions.toList.filterMap fun
    | .jsr l =>
      match s.positions.find l with
      | .ok start =>
        match s.body start with
        | .ok body => some (start, body)
        | .error _ => none
      | .error _ => none
    | _ => none

theorem mem_subroutines {index start : Nat} {l : Label} {body : List Nat}
    (hi : s.code.instructions[index]? = some (.jsr l)) (hstart : s.positions.find l = .ok start)
    (hbody : s.body start = .ok body) : (start, body) ∈ s.subroutines := by
  refine List.mem_filterMap.mpr ⟨.jsr l, Array.mem_toList_iff.mpr (Array.mem_of_getElem? hi), ?_⟩
  simp only [hstart, hbody]

end Resumption.Subroutine.Source
