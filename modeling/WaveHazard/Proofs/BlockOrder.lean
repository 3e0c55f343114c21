import Mathlib.Data.List.Perm.Basic
import WaveHazard.Program.Order

/-! # The block order lists every block once

The search finishes a position at most once and only inside of the program, and the positions it
does not reach follow it. The block order is therefore a permutation of all positions, so that
the place of a block in it names the block.
-/

namespace WaveHazard

namespace Search

variable {size : Nat} {successors : Nat → List Nat}

/-- A position is finished at most once. -/
theorem nodup_run {stack discovered finished : List Nat} (once : finished.Nodup) :
    (run size successors stack discovered finished).Nodup := by
  fun_induction run size successors stack discovered finished with
  | case1 => exact once
  | case2 _ _ _ _ _ _ ih => exact ih once
  | case3 discovered finished top rest inside found ih =>
      apply ih
      split
      · exact once
      · exact List.nodup_cons.mpr ⟨‹_›, once⟩
  | case4 _ _ _ _ _ ih => exact ih once

/-- Only positions of the program are finished. -/
theorem lt_of_mem_run {stack discovered finished : List Nat}
    (inside : ∀ position ∈ finished, position < size) :
    ∀ position ∈ run size successors stack discovered finished, position < size := by
  fun_induction run size successors stack discovered finished with
  | case1 => exact inside
  | case2 _ _ _ _ _ _ ih => exact ih inside
  | case3 discovered finished top rest bound found ih =>
      apply ih
      split
      · exact inside
      · intro position member
        rcases List.mem_cons.mp member with rfl | older
        · exact bound
        · exact inside position older
  | case4 _ _ _ _ _ ih => exact ih inside

/-- The position at the bottom of the stack is finished last. -/
theorem head?_run {root : Nat} (inside : root < size) {above stack discovered finished : List Nat}
    (bottom : stack = above ++ [root]) (once : root ∉ above) (found : root ∈ discovered)
    (unfinished : root ∉ finished) :
    (run size successors stack discovered finished).head? = some root := by
  fun_induction run size successors stack discovered finished generalizing above with
  | case1 => simp at bottom
  | case2 top rest discovered finished bound fresh ih =>
      have longer : (successors top).filter (fun next => next ∉ top :: discovered) ++ top :: rest =
          ((successors top).filter (fun next => next ∉ top :: discovered) ++ above) ++ [root] := by
        rw [bottom, List.append_assoc]
      refine ih longer ?_ (List.mem_cons_of_mem _ found) unfinished
      rw [List.mem_append, List.mem_filter]
      rintro (⟨_, hidden⟩ | again)
      · simp [found] at hidden
      · exact once again
  | case3 top rest discovered finished bound known ih =>
      cases above with
      | nil =>
          obtain ⟨rfl, rfl⟩ := List.cons.inj bottom
          rw [if_neg unfinished]
          unfold run
          rfl
      | cons first above =>
          obtain ⟨rfl, rfl⟩ := List.cons.inj bottom
          obtain ⟨other, once⟩ := not_or.mp (List.mem_cons.not.mp once)
          refine ih rfl once found ?_
          split
          · exact unfinished
          · exact List.mem_cons.not.mpr (not_or.mpr ⟨other, unfinished⟩)
  | case4 top rest discovered finished outside ih =>
      cases above with
      | nil =>
          obtain ⟨rfl, rfl⟩ := List.cons.inj bottom
          exact absurd inside outside
      | cons first above =>
          obtain ⟨rfl, rfl⟩ := List.cons.inj bottom
          exact ih rfl (fun later => once (List.mem_cons_of_mem _ later)) found unfinished

end Search

namespace Program

/-- The block order is a permutation of the positions of the program. -/
theorem reversePostorder_perm {program : Program} {order : List Nat}
    (ordered : program.reversePostorder = .ok order) :
    order.Perm (List.range program.size) := by
  unfold reversePostorder at ordered
  split at ordered
  · injection ordered with same
    subst same
    have reachedOnce : (Search.run program.size program.linearSuccessors [0] [] []).Nodup :=
      Search.nodup_run List.nodup_nil
    have reachedInside : ∀ position ∈ Search.run program.size program.linearSuccessors [0] [] [],
        position < program.size := Search.lt_of_mem_run (by simp)
    rw [List.perm_ext_iff_of_nodup _ List.nodup_range]
    · intro position
      simp only [List.mem_append, List.mem_filter, List.mem_range, decide_eq_true_eq]
      constructor
      · rintro (reached | ⟨inside, _⟩)
        · exact reachedInside position reached
        · exact inside
      · intro inside
        by_cases reached : position ∈ Search.run program.size program.linearSuccessors [0] [] []
        · exact .inl reached
        · exact .inr ⟨inside, reached⟩
    · refine List.nodup_append.mpr ⟨reachedOnce, List.nodup_range.filter _, ?_⟩
      rintro position reached _ rest rfl
      have unreached := (List.mem_filter.mp rest).2
      simp only [decide_eq_true_eq] at unreached
      exact unreached reached
  · cases ordered

/-- The entry of a program comes first in the block order. -/
theorem getElem?_zero_reversePostorder {program : Program} {order : List Nat}
    (nonempty : 0 < program.size) (ordered : program.reversePostorder = .ok order) :
    order[0]? = some 0 := by
  unfold reversePostorder at ordered
  split at ordered
  · cases ordered
    have first : (Search.run program.size program.linearSuccessors [0] [] []).head? = some 0 := by
      unfold Search.run
      rw [dif_pos nonempty, dif_pos List.not_mem_nil]
      exact Search.head?_run nonempty rfl (by simp) List.mem_cons_self List.not_mem_nil
    obtain ⟨rest, reached⟩ := List.head?_eq_some_iff.mp first
    rw [reached]
    rfl
  · cases ordered

/-- The place of a block in the block order is a position of the program. -/
theorem idxOf_reversePostorder_lt {program : Program} {order : List Nat}
    (ordered : program.reversePostorder = .ok order) {position : Nat}
    (inside : position < program.size) : order.idxOf position < program.size := by
  have perm := reversePostorder_perm ordered
  have member : position ∈ order := perm.mem_iff.mpr (List.mem_range.mpr inside)
  have short : order.length = program.size := by rw [perm.length_eq, List.length_range]
  rw [← short]
  exact List.idxOf_lt_length_of_mem member

/-- The place of a block in the block order names the block. -/
theorem getElem?_idxOf_reversePostorder {program : Program} {order : List Nat}
    (ordered : program.reversePostorder = .ok order) {position : Nat}
    (inside : position < program.size) : order[order.idxOf position]? = some position := by
  have member : position ∈ order :=
    (reversePostorder_perm ordered).mem_iff.mpr (List.mem_range.mpr inside)
  rw [List.getElem?_eq_getElem (List.idxOf_lt_length_of_mem member), List.getElem_idxOf]

/-- A block has one place in the block order. -/
theorem idxOf_of_getElem?_reversePostorder {program : Program} {order : List Nat}
    (ordered : program.reversePostorder = .ok order) {place position : Nat}
    (named : order[place]? = some position) : order.idxOf position = place := by
  have once : order.Nodup := (reversePostorder_perm ordered).nodup_iff.mpr List.nodup_range
  obtain ⟨bound, rfl⟩ := List.getElem?_eq_some_iff.mp named
  exact once.idxOf_getElem place bound

/-- Every place of the block order names a block. -/
theorem exists_getElem?_reversePostorder {program : Program} {order : List Nat}
    (ordered : program.reversePostorder = .ok order) {place : Nat} (inside : place < program.size) :
    ∃ position < program.size, order[place]? = some position := by
  have perm := reversePostorder_perm ordered
  have bound : place < order.length := by
    rw [perm.length_eq, List.length_range]
    exact inside
  exact ⟨order[place], List.mem_range.mp (perm.mem_iff.mp (List.getElem_mem bound)),
    List.getElem?_eq_getElem bound⟩

end Program

end WaveHazard
