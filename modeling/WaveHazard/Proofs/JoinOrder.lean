import Mathlib.Tactic.Tauto
import WaveHazard.Hazard.State
import WaveHazard.Proofs.EventSets

/-! # The order of joins

Joining entries, fences and states is commutative, associative and idempotent, so the join of
several predecessors does not depend on their order and absorbs each of them. The tests that
report whether a join changes something are exact: `State.grows` fails precisely when the join
leaves the state as it is.

Register entries are taken over only along the graph they are visible on. The laws of `State.join`
are therefore stated for joins along two graphs that need not be the same.
-/

namespace WaveHazard

namespace Wait

namespace Threshold

theorem stricter_comm (left right : Threshold) : left.stricter right = right.stricter left := by
  cases left <;> cases right <;> simp [stricter, Nat.min_comm]

theorem stricter_assoc (first second third : Threshold) :
    (first.stricter second).stricter third = first.stricter (second.stricter third) := by
  cases first <;> cases second <;> cases third <;> simp [stricter, Nat.min_assoc]

theorem stricter_self (threshold : Threshold) : threshold.stricter threshold = threshold := by
  cases threshold <;> simp [stricter]

/-- A threshold that is not stricter changes nothing. -/
theorem stricter_eq_left_iff {left right : Threshold} :
    left.stricter right = left ↔ right.isStricter left = false := by
  cases left <;> cases right <;> simp only [stricter, isStricter, Option.some.injEq] <;> grind

end Threshold

namespace Requirement

theorem combine_comm (left right : Requirement) : left.combine right = right.combine left :=
  ext_get fun counter => by simp [Threshold.stricter_comm]

theorem combine_assoc (first second third : Requirement) :
    (first.combine second).combine third = first.combine (second.combine third) :=
  ext_get fun counter => by simp [Threshold.stricter_assoc]

theorem combine_self (wait : Requirement) : wait.combine wait = wait :=
  ext_get fun counter => by simp [Threshold.stricter_self]

/-- A requirement that is nowhere stricter changes nothing. -/
theorem combine_eq_left_iff {left right : Requirement} :
    left.combine right = left ↔ left.tightens right = false := by
  unfold tightens
  rw [List.any_eq_false]
  constructor
  · intro same counter _
    have threshold := congrArg (·.get counter) same
    rw [get_combine] at threshold
    simpa using Threshold.stricter_eq_left_iff.mp threshold
  · intro loose
    apply ext_get
    intro counter
    rw [get_combine]
    exact Threshold.stricter_eq_left_iff.mpr (by simpa using loose counter counter.mem_all)

end Requirement

namespace Delay

theorem combine_comm (left right : Delay) : left.combine right = right.combine left := by
  simp [combine, Int.min_comm, Int.max_comm]

theorem combine_assoc (first second third : Delay) :
    (first.combine second).combine third = first.combine (second.combine third) := by
  simp [combine, Int.min_assoc, Int.max_assoc]

theorem combine_self (delay : Delay) : delay.combine delay = delay := by
  simp [combine]

/-- A delay that is nowhere closer or longer changes nothing. -/
theorem combine_eq_left_iff {left right : Delay} :
    left.combine right = left ↔ left.tightens right = false := by
  simp only [Delay.ext_iff, combine, tightens, Bool.or_eq_false_iff, decide_eq_false_iff_not]
  omega

end Delay

end Wait

namespace Hazard

open Machine Wait Index

namespace Entry

theorem join_comm (left right : Entry) : left.join right = right.join left := by
  simp [join, Requirement.combine_comm left.wait, Delay.combine_comm left.delay,
    FlagSet.or_comm left.events, FlagSet.or_comm left.counters, FlagSet.or_comm left.loads,
    Bool.or_comm, Bool.and_comm]

theorem join_assoc (first second third : Entry) :
    (first.join second).join third = first.join (second.join third) := by
  simp [join, Requirement.combine_assoc, Delay.combine_assoc, FlagSet.or_assoc, Bool.or_assoc,
    Bool.and_assoc]

theorem join_self (entry : Entry) : entry.join entry = entry := by
  simp [join, Requirement.combine_self, Delay.combine_self, FlagSet.or_self]

/-- An entry grows exactly when the join differs from it. -/
theorem join_eq_left_iff {left right : Entry} :
    left.join right = left ↔ left.grows right = false := by
  have onRead : (left.onRead || right.onRead) = left.onRead ↔
      (right.onRead && !left.onRead) = false := by
    cases left.onRead <;> cases right.onRead <;> decide
  have logical : (left.logical && right.logical) = left.logical ↔
      (!right.logical && left.logical) = false := by
    cases left.logical <;> cases right.logical <;> decide
  simp only [Entry.ext_iff, join, grows, Bool.or_eq_false_iff, Bool.not_eq_false',
    FlagSet.diff_isEmpty_iff, Requirement.combine_eq_left_iff, Delay.combine_eq_left_iff, onRead,
    logical]
  tauto

end Entry

namespace Fence

theorem join_comm (left right : Fence) : left.join right = right.join left := by
  simp [join, Requirement.combine_comm left.wait, FlagSet.or_comm left.events]

theorem join_assoc (first second third : Fence) :
    (first.join second).join third = first.join (second.join third) := by
  simp [join, Requirement.combine_assoc, FlagSet.or_assoc]

theorem join_self (fence : Fence) : fence.join fence = fence := by
  simp [join, Requirement.combine_self, FlagSet.or_self]

/-- A fence grows exactly when the join differs from it. -/
theorem join_eq_left_iff {left right : Fence} :
    left.join right = left ↔ left.grows right = false := by
  simp only [Fence.ext_iff, join, grows, Bool.or_eq_false_iff, Bool.not_eq_false',
    FlagSet.diff_isEmpty_iff, Requirement.combine_eq_left_iff]

end Fence

namespace State

/-- Joining the same slot twice changes nothing more. -/
theorem joinSlot_self (logical : Bool) (mine theirs : Option Entry) :
    joinSlot logical (joinSlot logical mine theirs) theirs = joinSlot logical mine theirs := by
  cases theirs with
  | none => rfl
  | some entry =>
      by_cases visible : entry.logical = logical
      · cases mine with
        | none => simp [joinSlot, visible, Entry.join_self]
        | some held => simp [joinSlot, visible, Entry.join_assoc, Entry.join_self]
      · simp [joinSlot, visible]

/-- What a slot takes over from two predecessors does not depend on their order. -/
theorem joinSlot_right_comm (firstLogical secondLogical : Bool)
    (mine first second : Option Entry) :
    joinSlot secondLogical (joinSlot firstLogical mine first) second =
      joinSlot firstLogical (joinSlot secondLogical mine second) first := by
  cases first with
  | none => rfl
  | some first =>
      cases second with
      | none => rfl
      | some second =>
          by_cases firstVisible : first.logical = firstLogical <;>
            by_cases secondVisible : second.logical = secondLogical <;>
            cases mine <;>
            simp [joinSlot, firstVisible, secondVisible, Entry.join_comm first second,
              Entry.join_assoc]

/-- A slot grows exactly when the join differs from it. -/
theorem joinSlot_eq_left_iff {logical : Bool} {mine theirs : Option Entry} :
    joinSlot logical mine theirs = mine ↔ slotGrows logical mine theirs = false := by
  cases theirs with
  | none => simp [joinSlot, slotGrows]
  | some entry =>
      by_cases visible : entry.logical = logical
      · cases mine with
        | none => simp [joinSlot, slotGrows, visible]
        | some held => simp [joinSlot, slotGrows, visible, Entry.join_eq_left_iff]
      · simp [joinSlot, slotGrows, visible]

/-- Fences and registers are joined place by place. -/
theorem join_eq_iff {state other joined : State} {logical : Bool} :
    state.join other logical = joined ↔
      state.inFlight ||| other.inFlight = joined.inFlight ∧
        (state.flatLgkm || other.flatLgkm) = joined.flatLgkm ∧
        (state.flatVm || other.flatVm) = joined.flatVm ∧
        (state.scalarStore || other.scalarStore) = joined.scalarStore ∧
        (∀ index : Fin storageCount,
          (state.fence index).join (other.fence index) = joined.fence index) ∧
        ∀ slot, joinSlot logical (state.registers.get? slot) (other.registers.get? slot) =
          joined.registers.get? slot := by
  rw [State.ext_iff]
  refine and_congr Iff.rfl (and_congr Iff.rfl (and_congr Iff.rfl (and_congr Iff.rfl
    (and_congr ?_ ?_))))
  · constructor
    · intro same index
      unfold fence
      rw [← same]
      simp [join]
    · intro same
      apply Vector.ext
      intro position inside
      simpa [join, fence] using same ⟨position, inside⟩
  · constructor
    · intro same slot
      rw [← same]
      simp [join]
    · intro same
      apply SlotMap.ext_get?
      intro slot
      simpa [join] using same slot

@[simp] theorem fence_join (state other : State) (logical : Bool) (index : Fin storageCount) :
    (state.join other logical).fence index =
      (state.fence index).join (other.fence index) := by
  simp [join, fence]

@[simp] theorem get?_registers_join (state other : State) (logical : Bool) (slot : Slot) :
    (state.join other logical).registers.get? slot =
      joinSlot logical (state.registers.get? slot) (other.registers.get? slot) := by
  simp [join]

/-- A state grows exactly when the join differs from it. -/
theorem join_eq_left_iff {state other : State} {logical : Bool} :
    state.join other logical = state ↔ state.grows other logical = false := by
  have flag (mine theirs : Bool) : (mine || theirs) = mine ↔ (theirs && !mine) = false := by
    cases mine <;> cases theirs <;> decide
  rw [join_eq_iff]
  simp only [grows, Bool.or_eq_false_iff, Bool.not_eq_false', FlagSet.diff_isEmpty_iff,
    List.any_eq_false, List.mem_finRange, forall_const, Bool.not_eq_true, flag,
    Fence.join_eq_left_iff, joinSlot_eq_left_iff]
  tauto

/-- Joining the same predecessor twice changes nothing more. -/
theorem join_self_right (state other : State) (logical : Bool) :
    (state.join other logical).join other logical = state.join other logical := by
  rw [join_eq_iff]
  refine ⟨?_, ?_, ?_, ?_, ?_, ?_⟩
  · simp [join, FlagSet.or_assoc, FlagSet.or_self]
  · simp [join]
  · simp [join]
  · simp [join]
  · intro index
    rw [fence_join, Fence.join_assoc, Fence.join_self]
  · intro slot
    rw [get?_registers_join, joinSlot_self]

/-- The join of two predecessors does not depend on their order. -/
theorem join_right_comm (state first second : State) (firstLogical secondLogical : Bool) :
    (state.join first firstLogical).join second secondLogical =
      (state.join second secondLogical).join first firstLogical := by
  rw [join_eq_iff]
  refine ⟨?_, ?_, ?_, ?_, ?_, ?_⟩
  · simp [join, FlagSet.or_assoc, FlagSet.or_comm first.inFlight]
  · simp [join, Bool.or_assoc, Bool.or_comm first.flatLgkm]
  · simp [join, Bool.or_assoc, Bool.or_comm first.flatVm]
  · simp [join, Bool.or_assoc, Bool.or_comm first.scalarStore]
  · intro index
    rw [fence_join, fence_join, fence_join, Fence.join_assoc, Fence.join_assoc,
      Fence.join_comm (first.fence index)]
  · intro slot
    rw [get?_registers_join, get?_registers_join, get?_registers_join, joinSlot_right_comm]

/-- The state has everything that another one passes on along a graph. -/
def Absorbs (state other : State) (logical : Bool) : Prop := state.join other logical = state

/-- A join absorbs what was joined. -/
theorem absorbs_join (state other : State) (logical : Bool) :
    (state.join other logical).Absorbs other logical :=
  join_self_right state other logical

/-- What has been absorbed stays absorbed by later joins. -/
theorem Absorbs.join {state other : State} {logical : Bool} (absorbs : state.Absorbs other logical)
    (more : State) (moreLogical : Bool) : (state.join more moreLogical).Absorbs other logical := by
  unfold Absorbs at absorbs ⊢
  rw [join_right_comm, absorbs]

/-- A state absorbs itself along both graphs. -/
theorem absorbs_self (state : State) (logical : Bool) : state.Absorbs state logical := by
  rw [Absorbs, join_eq_iff]
  refine ⟨FlagSet.or_self _, Bool.or_self _, Bool.or_self _, Bool.or_self _, ?_, ?_⟩
  · intro index
    exact Fence.join_self _
  · intro slot
    cases held : state.registers.get? slot with
    | none => rfl
    | some entry =>
        by_cases visible : entry.logical = logical
        · simp [joinSlot, visible, Entry.join_self]
        · simp [joinSlot, visible]

end State

end Hazard

end WaveHazard
