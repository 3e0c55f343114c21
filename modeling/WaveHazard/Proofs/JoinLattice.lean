import Mathlib.Data.List.Dedup
import Mathlib.Order.Bounds.Basic
import WaveHazard.Hazard.Analysis
import WaveHazard.Proofs.StateOrder

/-! # Joins are least upper bounds

What a state passes on along a graph is the state without the register entries of the other
visibility. A join is the least state above the one it starts from and above what its predecessor
passes on. Every component is treated by one equivalence of the form
`left.join right ≤ upper ↔ left ≤ upper ∧ right ≤ upper`, which says both that the join is an upper
bound and that it is the least one.

It follows that joining several predecessors one after the other gives a state, and a report of
change, that depend on the set of predecessors only.
-/

namespace WaveHazard

namespace Wait

/-- The stricter of two thresholds is what both of them ask for. -/
theorem Threshold.isStricter_stricter_iff {left right upper : Threshold} :
    (left.stricter right).isStricter upper = false ↔
      left.isStricter upper = false ∧ right.isStricter upper = false := by
  cases left <;> cases right <;> cases upper <;> simp [isStricter, stricter]

/-- A combined requirement is the least one above both parts. -/
theorem Requirement.combine_le_iff {left right upper : Requirement} :
    left.combine right ≤ upper ↔ left ≤ upper ∧ right ≤ upper := by
  have pointwise (counter : Counter) :
      ((left.combine right).get counter).isStricter (upper.get counter) = false ↔
        (left.get counter).isStricter (upper.get counter) = false ∧
          (right.get counter).isStricter (upper.get counter) = false := by
    rw [get_combine, Threshold.isStricter_stricter_iff]
  exact (forall_congr' pointwise).trans forall_and

/-- A combined delay is the least one above both parts. -/
theorem Delay.combine_le_iff {left right upper : Delay} :
    left.combine right ≤ upper ↔ left ≤ upper ∧ right ≤ upper := by
  constructor
  · rintro ⟨valuInstrs, valuCycles, transInstrs, transCycles, saluCycles⟩
    rw [combine] at valuInstrs valuCycles transInstrs transCycles saluCycles
    rw [le_min_iff] at valuInstrs transInstrs
    rw [max_le_iff] at valuCycles transCycles saluCycles
    exact ⟨⟨valuInstrs.1, valuCycles.1, transInstrs.1, transCycles.1, saluCycles.1⟩,
      ⟨valuInstrs.2, valuCycles.2, transInstrs.2, transCycles.2, saluCycles.2⟩⟩
  · rintro ⟨first, second⟩
    exact ⟨le_min first.valuInstrs second.valuInstrs, max_le first.valuCycles second.valuCycles,
      le_min first.transInstrs second.transInstrs, max_le first.transCycles second.transCycles,
      max_le first.saluCycles second.saluCycles⟩

end Wait

namespace Hazard

open Machine Wait Index

/-- A joined entry is the least one above both parts. -/
theorem Entry.join_le_iff {left right upper : Entry} :
    left.join right ≤ upper ↔ left ≤ upper ∧ right ≤ upper := by
  constructor
  · intro above
    have aboveRight : right.join left ≤ upper := by rwa [join_comm]
    exact ⟨(le_join left right).trans above, (le_join right left).trans aboveRight⟩
  · rintro ⟨first, second⟩
    exact
      { wait := Requirement.combine_le_iff.mpr ⟨first.wait, second.wait⟩
        delay := Delay.combine_le_iff.mpr ⟨first.delay, second.delay⟩
        events := FlagSet.or_le_iff.mpr ⟨first.events, second.events⟩
        counters := FlagSet.or_le_iff.mpr ⟨first.counters, second.counters⟩
        onRead := Bool.or_le first.onRead second.onRead
        logical := Bool.le_and first.logical second.logical
        loads := FlagSet.or_le_iff.mpr ⟨first.loads, second.loads⟩ }

/-- A joined fence is the least one above both parts. -/
theorem Fence.join_le_iff {left right upper : Fence} :
    left.join right ≤ upper ↔ left ≤ upper ∧ right ≤ upper := by
  constructor
  · intro above
    have aboveRight : right.join left ≤ upper := by rwa [join_comm]
    exact ⟨(le_join left right).trans above, (le_join right left).trans aboveRight⟩
  · rintro ⟨first, second⟩
    exact ⟨Requirement.combine_le_iff.mpr ⟨first.wait, second.wait⟩,
      FlagSet.or_le_iff.mpr ⟨first.events, second.events⟩⟩

namespace State

/-- What the state passes on along a graph: everything but the register entries that are visible
along the other graph. -/
def visible (state : State) (logical : Bool) : State :=
  { state with
    registers := state.registers.retain fun _ entry =>
      if entry.logical = logical then some entry else none }

@[simp] theorem fence_visible (state : State) (logical : Bool) (index : Fin storageCount) :
    (state.visible logical).fence index = state.fence index := by
  simp only [fence, visible]

@[simp] theorem get?_registers_visible (state : State) (logical : Bool) (slot : Slot) :
    (state.visible logical).registers.get? slot =
      (state.registers.get? slot).bind fun entry =>
        if entry.logical = logical then some entry else none := by
  simp [visible]

/-- A joined slot is the least one above what was there and what can be seen of the other slot. -/
theorem joinSlot_within_iff {logical : Bool} {mine theirs upper : Option Entry} :
    SlotWithin (joinSlot logical mine theirs) upper ↔
      SlotWithin mine upper ∧
        SlotWithin (theirs.bind fun entry => if entry.logical = logical then some entry else none)
          upper := by
  cases theirs with
  | none => exact (and_iff_left trivial).symm
  | some entry =>
      by_cases seen : entry.logical = logical
      · cases mine with
        | none => simp [joinSlot, seen, SlotWithin]
        | some held =>
            cases upper with
            | none => simp [joinSlot, seen, SlotWithin]
            | some upper => simp [joinSlot, seen, SlotWithin, Entry.join_le_iff]
      · simp [joinSlot, seen, SlotWithin]

/-- States are compared part by part. -/
theorem le_iff {left right : State} :
    left ≤ right ↔
      left.inFlight ≤ right.inFlight ∧ left.flatLgkm ≤ right.flatLgkm ∧
        left.flatVm ≤ right.flatVm ∧ left.scalarStore ≤ right.scalarStore ∧
        (∀ index, left.fence index ≤ right.fence index) ∧
        ∀ slot, SlotWithin (left.registers.get? slot) (right.registers.get? slot) := by
  constructor
  · rintro ⟨inFlight, flatLgkm, flatVm, scalarStore, fences, registers⟩
    exact ⟨inFlight, flatLgkm, flatVm, scalarStore, fences, registers⟩
  · rintro ⟨inFlight, flatLgkm, flatVm, scalarStore, fences, registers⟩
    exact ⟨inFlight, flatLgkm, flatVm, scalarStore, fences, registers⟩

/-- What a state passes on is compared part by part, its registers as far as they can be seen. -/
theorem visible_le_iff {state upper : State} {logical : Bool} :
    state.visible logical ≤ upper ↔
      state.inFlight ≤ upper.inFlight ∧ state.flatLgkm ≤ upper.flatLgkm ∧
        state.flatVm ≤ upper.flatVm ∧ state.scalarStore ≤ upper.scalarStore ∧
        (∀ index, state.fence index ≤ upper.fence index) ∧
        ∀ slot, SlotWithin ((state.registers.get? slot).bind fun entry =>
          if entry.logical = logical then some entry else none) (upper.registers.get? slot) := by
  rw [le_iff]
  simp only [fence_visible, get?_registers_visible]
  simp only [visible]

/-- The states above a join are those above both of its parts. -/
theorem join_le_iff {state other upper : State} {logical : Bool} :
    state.join other logical ≤ upper ↔ state ≤ upper ∧ other.visible logical ≤ upper := by
  have flag (mine theirs above : Bool) :
      (mine || theirs) ≤ above ↔ mine ≤ above ∧ theirs ≤ above := sup_le_iff
  rw [le_iff, le_iff, visible_le_iff]
  simp only [fence_join, get?_registers_join, Fence.join_le_iff, joinSlot_within_iff, forall_and]
  simp only [join, FlagSet.or_le_iff, flag]
  tauto

/-- One more predecessor, given with the graph of its edge. The flag reports whether the state has
changed so far. -/
def joinNext (joined pred : State × Bool) : State × Bool :=
  (joined.1.join pred.1 pred.2, joined.2 || joined.1.grows pred.1 pred.2)

/-- The state joined with all the given predecessors in order, and whether that changed it. -/
def joinAll (state : State) (preds : List (State × Bool)) : State × Bool :=
  preds.foldl joinNext (state, false)

/-- A join with several predecessors is the least state above all that they pass on. -/
theorem foldl_joinNext_le_iff {joined : State × Bool} {preds : List (State × Bool)}
    {upper : State} :
    (preds.foldl joinNext joined).1 ≤ upper ↔
      joined.1 ≤ upper ∧ ∀ pred ∈ preds, pred.1.visible pred.2 ≤ upper := by
  induction preds generalizing joined with
  | nil => simp
  | cons pred preds ih =>
      rw [List.foldl_cons, ih, List.forall_mem_cons]
      exact (and_congr_left' join_le_iff).trans and_assoc

/-- A change is reported exactly when there is one. -/
theorem foldl_joinNext_reports {joined : State × Bool} {preds : List (State × Bool)} :
    (preds.foldl joinNext joined).2 = true ↔
      joined.2 = true ∨ (preds.foldl joinNext joined).1 ≠ joined.1 := by
  induction preds generalizing joined with
  | nil => simp
  | cons pred preds ih =>
      have above : (joinNext joined pred).1 ≤ (preds.foldl joinNext (joinNext joined pred)).1 :=
        (foldl_joinNext_le_iff.mp le_rfl).1
      rw [List.foldl_cons, ih]
      by_cases grew : joined.1.grows pred.1 pred.2 = true
      · -- The first join is strictly above the start, and everything after it is above that.
        have below : joined.1 < (preds.foldl joinNext (joinNext joined pred)).1 :=
          (lt_join_iff.mpr grew).trans_le above
        have reported : (joinNext joined pred).2 = true := by simp [joinNext, grew]
        simp only [reported, true_or, ne_eq, below.ne', not_false_eq_true, or_true]
      · have still : joinNext joined pred = joined := by
          have unchanged := join_eq_left_iff.mpr (eq_false_of_ne_true grew)
          simp [joinNext, unchanged, eq_false_of_ne_true grew]
        rw [still]

/-- Only which predecessors there are matters for their join. -/
theorem joinAll_congr (state : State) {preds others : List (State × Bool)}
    (same : ∀ pred, pred ∈ others ↔ pred ∈ preds) : state.joinAll others = state.joinAll preds := by
  have states : (state.joinAll others).1 = (state.joinAll preds).1 := by
    refine eq_of_forall_ge_iff fun upper => ?_
    simp only [joinAll, foldl_joinNext_le_iff, same]
  have reports : (state.joinAll others).2 = (state.joinAll preds).2 := by
    rw [Bool.eq_iff_iff, joinAll, joinAll, foldl_joinNext_reports, foldl_joinNext_reports]
    exact or_congr_right (not_congr (by rw [← joinAll, ← joinAll, states]))
  exact Prod.ext states reports

end State

namespace Progress

variable {size : Nat}

/-- The states that the given predecessors leave, with the graph of their edges. -/
def leaving (exit : Vector State size) (logical : Bool) (preds : List Nat) :
    List (State × Bool) :=
  preds.filterMap fun pred => exit[pred]?.map fun state => (state, logical)

/-- The predecessors of a block are joined one after the other. -/
theorem joinPreds_eq_foldl (exit : Vector State size) (logical : Bool) {preds : List Nat}
    (inside : ∀ pred ∈ preds, pred < size) (joined : State × Bool) :
    joinPreds exit logical preds joined =
      .ok ((leaving exit logical preds).foldl State.joinNext joined) := by
  induction preds generalizing joined with
  | nil => rfl
  | cons pred preds ih =>
      obtain ⟨first, others⟩ := List.forall_mem_cons.mp inside
      have next : leaving exit logical (pred :: preds) =
          (exit[pred], logical) :: leaving exit logical preds := by
        simp [leaving, first]
      rw [next, List.foldl_cons, ← ih others, joinPreds, List.foldlM_cons]
      simp only [first, dite_true]
      rfl

/-- The analysis joins what all predecessors of a block leave, those of the linear graph first. -/
theorem arriving_eq_joinAll (progress : Progress size) {block : Block}
    (linear : ∀ pred ∈ block.linearPreds, pred < size)
    (logical : ∀ pred ∈ block.logicalPreds, pred < size) (state : State) :
    progress.arriving block state =
      .ok (state.joinAll (leaving progress.exit false block.linearPreds ++
        leaving progress.exit true block.logicalPreds)) := by
  rw [arriving, joinPreds_eq_foldl _ _ linear, State.joinAll, List.foldl_append]
  exact joinPreds_eq_foldl _ _ logical _

end Progress

namespace State

/-- A join reports a change exactly when there is one, and it is the least state above the one it
starts from and above what the predecessor passes on. Hence joining a list of predecessors gives
the same state and the same report for every order of the list and without its repetitions. -/
theorem join_is_least_upper_bound (state other : State) (logical : Bool)
    (preds : List (State × Bool)) :
    (state.grows other logical = true ↔ state.join other logical ≠ state) ∧
      state ≤ state.join other logical ∧
      other.visible logical ≤ state.join other logical ∧
      (∀ upper, state ≤ upper → other.visible logical ≤ upper →
        state.join other logical ≤ upper) ∧
      (∀ others, others.Perm preds → state.joinAll others = state.joinAll preds) ∧
      state.joinAll preds.dedup = state.joinAll preds := by
  refine ⟨?_, le_join state other logical, (join_le_iff.mp le_rfl).2, ?_, ?_, ?_⟩
  · rw [← Bool.not_eq_false, ne_eq, join_eq_left_iff]
  · intro upper above aboveVisible
    exact join_le_iff.mpr ⟨above, aboveVisible⟩
  · intro others reordered
    exact state.joinAll_congr fun pred => reordered.mem_iff
  · exact state.joinAll_congr fun pred => List.mem_dedup

end State

end Hazard

end WaveHazard
