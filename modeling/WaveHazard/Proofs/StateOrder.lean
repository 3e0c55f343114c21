import Mathlib.Algebra.GroupWithZero.Nat
import Mathlib.Algebra.Order.BigOperators.Group.List
import Mathlib.Algebra.Order.Group.Nat
import Mathlib.Order.Basic
import WaveHazard.Proofs.JoinOrder

/-! # The order of states and its height

A state is below another one when the other one knows of more: of more entries, events, counters,
flags and kinds of loads, of stricter thresholds, of closer producers and of longer latencies. A
join lies above the state it starts from, and strictly so exactly when it reports a change.

All numbers of a state fit into bytes. Such states have a rank that rises along the order and is
bounded, so no chain of them is longer than `State.height`.
-/

namespace WaveHazard

/-- When no summand exceeds its counterpart and the total does not either, they are the same. -/
theorem le_of_sum_map_le {α : Type} {items : List α} {smaller larger : α → Nat}
    (below : ∀ item ∈ items, smaller item ≤ larger item)
    (total : (items.map larger).sum ≤ (items.map smaller).sum) :
    ∀ item ∈ items, larger item ≤ smaller item := by
  intro item member
  by_contra more
  have strict := List.sum_lt_sum smaller larger below ⟨item, member, Nat.lt_of_not_le more⟩
  omega

/-- A sum is bounded when its summands are. -/
theorem sum_map_le {α : Type} {items : List α} {summand : α → Nat} {bound : Nat}
    (bounded : ∀ item ∈ items, summand item ≤ bound) :
    (items.map summand).sum ≤ items.length * bound := by
  have total := List.sum_le_card_nsmul (items.map summand) bound (by simpa using bounded)
  simpa using total

/-- Different flags count differently. -/
theorem eq_of_toNat_eq {left right : Bool} (same : left.toNat = right.toNat) : left = right := by
  cases left <;> cases right <;> first | rfl | exact absurd same (by decide)

namespace FlagSet

variable {family : FlagFamily}

/-- A set of flags is below those that have its flags. -/
instance : PartialOrder (FlagSet family) where
  le left right := ∀ position, left.has position = true → right.has position = true
  le_refl _ _ held := held
  le_trans _ _ _ first second position held := second position (first position held)
  le_antisymm left right first second := ext_has fun position => by
    rw [Bool.eq_iff_iff]
    exact ⟨first position, second position⟩

/-- A union has the flags of its first part. -/
theorem le_or_left (left right : FlagSet family) : left ≤ left ||| right := by
  intro position held
  rw [has_or, held, Bool.true_or]

/-- A union is the least set above both of its parts. -/
theorem or_le_iff {left right upper : FlagSet family} :
    left ||| right ≤ upper ↔ left ≤ upper ∧ right ≤ upper := by
  constructor
  · intro above
    refine ⟨fun position held => above position ?_, fun position held => above position ?_⟩
    · rw [has_or, held, Bool.true_or]
    · rw [has_or, held, Bool.or_true]
  · rintro ⟨aboveLeft, aboveRight⟩ position held
    rw [has_or, Bool.or_eq_true] at held
    exact held.elim (aboveLeft position) (aboveRight position)

/-- The number of flags in the set. -/
def rank (set : FlagSet family) : Nat :=
  ((List.range family.width).map fun position => (set.has position).toNat).sum

/-- A flag of the smaller set counts for the larger one as well. -/
theorem toNat_has_le {left right : FlagSet family} (below : left ≤ right) (position : Nat) :
    (left.has position).toNat ≤ (right.has position).toNat :=
  Bool.toNat_le_toNat (Bool.le_iff_imp.mpr (below position))

/-- A larger set has at least as many flags. -/
theorem rank_mono {left right : FlagSet family} (below : left ≤ right) : left.rank ≤ right.rank :=
  List.sum_le_sum fun position _ => toNat_has_le below position

/-- A larger set with no more flags is the same set. -/
theorem eq_of_rank_le {left right : FlagSet family} (below : left ≤ right)
    (same : right.rank ≤ left.rank) : left = right := by
  refine le_antisymm below ?_
  intro position held
  by_cases inside : position < family.width
  · have count := le_of_sum_map_le (fun position _ => toNat_has_le below position) same position
      (List.mem_range.mpr inside)
    rw [held] at count
    cases has : left.has position with
    | true => rfl
    | false => rw [has] at count; exact absurd count (by decide)
  · rw [has_of_width_le right (Nat.le_of_not_lt inside)] at held
    cases held

/-- A set has at most as many flags as its family. -/
theorem rank_le_width (set : FlagSet family) : set.rank ≤ family.width := by
  have bounded := @sum_map_le _ (List.range family.width)
    (fun position => (set.has position).toNat) 1 (fun position _ => Bool.toNat_le _)
  rw [List.length_range, Nat.mul_one] at bounded
  exact bounded

end FlagSet

namespace Wait

namespace Threshold

/-- No threshold is stricter than itself. -/
theorem isStricter_self (threshold : Threshold) : threshold.isStricter threshold = false := by
  cases threshold <;> simp [isStricter]

/-- To be at least as strict is transitive. -/
theorem isStricter_trans {first second third : Threshold}
    (left : first.isStricter second = false) (right : second.isStricter third = false) :
    first.isStricter third = false := by
  cases first <;> cases second <;> cases third <;> simp_all [isStricter]
  omega

/-- Of two different thresholds one is stricter. -/
theorem isStricter_antisymm {left right : Threshold} (first : left.isStricter right = false)
    (second : right.isStricter left = false) : left = right := by
  cases left <;> cases right <;> simp_all [isStricter]
  omega

/-- The stricter of two thresholds is at least as strict as the first one. -/
theorem isStricter_stricter (left right : Threshold) :
    left.isStricter (left.stricter right) = false := by
  cases left <;> cases right <;> simp [isStricter, stricter]

/-- How strict a threshold is: no bound has rank 0. -/
def rank (threshold : Threshold) : Nat := unset - threshold.toByte

/-- A stricter threshold has a larger rank. -/
theorem rank_mono {left right : Threshold} (below : left.isStricter right = false) :
    left.rank ≤ right.rank := by
  cases left <;> cases right <;> simp_all [isStricter, rank, toByte]
  omega

/-- A stricter threshold of no larger rank is the same one, as long as it fits into a byte. -/
theorem eq_of_rank_le {left right : Threshold} (below : left.isStricter right = false)
    (fits : ∀ n, right = some n → n < unset) (same : right.rank ≤ left.rank) : left = right := by
  cases left <;> cases right <;> simp_all [isStricter, rank, toByte] <;> omega

end Threshold

namespace Requirement

/-- A requirement is below those that are at least as strict. -/
instance : PartialOrder Requirement where
  le left right := ∀ counter, (left.get counter).isStricter (right.get counter) = false
  le_refl wait counter := Threshold.isStricter_self _
  le_trans _ _ _ first second counter :=
    Threshold.isStricter_trans (first counter) (second counter)
  le_antisymm _ _ first second :=
    ext_get fun counter => Threshold.isStricter_antisymm (first counter) (second counter)

/-- A requirement combined with another one is at least as strict. -/
theorem le_combine_left (left right : Requirement) : left ≤ left.combine right := by
  intro counter
  rw [get_combine]
  exact Threshold.isStricter_stricter _ _

/-- All thresholds fit into bytes. -/
def Fits (wait : Requirement) : Prop :=
  ∀ counter n, wait.get counter = some n → n < Threshold.unset

/-- How strict the thresholds are altogether. -/
def rank (wait : Requirement) : Nat :=
  (Counter.all.map fun counter => (wait.get counter).rank).sum

/-- The largest rank of a requirement. -/
def height : Nat := Counter.all.length * Threshold.unset

/-- A stricter requirement has a larger rank: the ranks of its thresholds are summed up. -/
theorem rank_mono {left right : Requirement} (below : left ≤ right) : left.rank ≤ right.rank :=
  List.sum_le_sum fun counter _ => Threshold.rank_mono (below counter)

/-- A stricter requirement of no larger rank has the same thresholds. -/
theorem eq_of_rank_le {left right : Requirement} (below : left ≤ right) (fits : right.Fits)
    (same : right.rank ≤ left.rank) : left = right := by
  apply ext_get
  intro counter
  exact Threshold.eq_of_rank_le (below counter) (fits counter)
    (le_of_sum_map_le (fun counter _ => Threshold.rank_mono (below counter)) same counter
      counter.mem_all)

/-- No requirement is stricter than the one in which all thresholds are 0. -/
theorem rank_le_height (wait : Requirement) : wait.rank ≤ height :=
  sum_map_le fun _ _ => Nat.sub_le _ _

end Requirement

/-- The value is a signed byte. -/
def IsByte (value : Int) : Prop := -128 ≤ value ∧ value ≤ 127

/-- How far a signed byte is above the smallest one. -/
def aboveSmallest (value : Int) : Nat := (value + 128).toNat

/-- How far a signed byte is below the largest one. -/
def belowLargest (value : Int) : Nat := (127 - value).toNat

section Bytes

variable {left right : Int}

/-- A larger number is further above the smallest byte. -/
theorem aboveSmallest_mono (below : left ≤ right) : aboveSmallest left ≤ aboveSmallest right := by
  unfold aboveSmallest
  omega

/-- A smaller number is further below the largest byte. -/
theorem belowLargest_anti (below : left ≤ right) : belowLargest right ≤ belowLargest left := by
  unfold belowLargest
  omega

/-- A byte is known by its distance from the smallest one. -/
theorem eq_of_aboveSmallest_eq (isByteLeft : IsByte left) (isByteRight : IsByte right)
    (same : aboveSmallest left = aboveSmallest right) : left = right := by
  unfold IsByte at isByteLeft isByteRight
  unfold aboveSmallest at same
  omega

/-- A byte is known by its distance from the largest one. -/
theorem eq_of_belowLargest_eq (isByteLeft : IsByte left) (isByteRight : IsByte right)
    (same : belowLargest left = belowLargest right) : left = right := by
  unfold IsByte at isByteLeft isByteRight
  unfold belowLargest at same
  omega

/-- A byte is at most 255 above the smallest one. -/
theorem aboveSmallest_le (isByte : IsByte left) : aboveSmallest left ≤ 255 := by
  unfold IsByte at isByte
  unfold aboveSmallest
  omega

/-- A byte is at most 255 below the largest one. -/
theorem belowLargest_le (isByte : IsByte left) : belowLargest left ≤ 255 := by
  unfold IsByte at isByte
  unfold belowLargest
  omega

end Bytes

namespace Delay

/-- The other delay is for closer producers and longer latencies. -/
structure Within (left right : Delay) : Prop where
  valuInstrs : right.valuInstrs ≤ left.valuInstrs
  valuCycles : left.valuCycles ≤ right.valuCycles
  transInstrs : right.transInstrs ≤ left.transInstrs
  transCycles : left.transCycles ≤ right.transCycles
  saluCycles : left.saluCycles ≤ right.saluCycles

instance : PartialOrder Delay where
  le := Within
  le_refl _ := ⟨le_rfl, le_rfl, le_rfl, le_rfl, le_rfl⟩
  le_trans _ _ _ first second :=
    ⟨second.valuInstrs.trans first.valuInstrs, first.valuCycles.trans second.valuCycles,
      second.transInstrs.trans first.transInstrs, first.transCycles.trans second.transCycles,
      first.saluCycles.trans second.saluCycles⟩
  le_antisymm _ _ first second := Delay.ext
    (le_antisymm second.valuInstrs first.valuInstrs)
    (le_antisymm first.valuCycles second.valuCycles)
    (le_antisymm second.transInstrs first.transInstrs)
    (le_antisymm first.transCycles second.transCycles)
    (le_antisymm first.saluCycles second.saluCycles)

/-- A delay combined with another one is for producers as close and latencies as long. -/
theorem le_combine_left (left right : Delay) : left ≤ left.combine right :=
  ⟨min_le_left _ _, le_max_left _ _, min_le_left _ _, le_max_left _ _, le_max_left _ _⟩

/-- All numbers fit into signed bytes. -/
structure Fits (delay : Delay) : Prop where
  valuInstrs : IsByte delay.valuInstrs
  valuCycles : IsByte delay.valuCycles
  transInstrs : IsByte delay.transInstrs
  transCycles : IsByte delay.transCycles
  saluCycles : IsByte delay.saluCycles

/-- How close the producers and how long the latencies are altogether. -/
def rank (delay : Delay) : Nat :=
  belowLargest delay.valuInstrs + aboveSmallest delay.valuCycles + belowLargest delay.transInstrs
    + aboveSmallest delay.transCycles + aboveSmallest delay.saluCycles

/-- The largest rank of a delay. -/
def height : Nat := 255 + 255 + 255 + 255 + 255

variable {left right : Delay}

/-- Each number of a larger delay has at least the rank it has in the smaller one. -/
theorem ranks_le (below : left ≤ right) :
    belowLargest left.valuInstrs ≤ belowLargest right.valuInstrs ∧
      aboveSmallest left.valuCycles ≤ aboveSmallest right.valuCycles ∧
      belowLargest left.transInstrs ≤ belowLargest right.transInstrs ∧
      aboveSmallest left.transCycles ≤ aboveSmallest right.transCycles ∧
      aboveSmallest left.saluCycles ≤ aboveSmallest right.saluCycles :=
  ⟨belowLargest_anti below.valuInstrs, aboveSmallest_mono below.valuCycles,
    belowLargest_anti below.transInstrs, aboveSmallest_mono below.transCycles,
    aboveSmallest_mono below.saluCycles⟩

/-- A delay for closer producers or longer latencies has a larger rank. -/
theorem rank_mono (below : left ≤ right) : left.rank ≤ right.rank := by
  have ranks := ranks_le below
  unfold rank
  omega

/-- A larger delay of no larger rank is the same one, as long as its numbers are bytes. -/
theorem eq_of_rank_le (below : left ≤ right) (fitsLeft : left.Fits) (fitsRight : right.Fits)
    (same : right.rank ≤ left.rank) : left = right := by
  have ranks := ranks_le below
  unfold rank at same
  exact Delay.ext
    (eq_of_belowLargest_eq fitsLeft.valuInstrs fitsRight.valuInstrs (by omega))
    (eq_of_aboveSmallest_eq fitsLeft.valuCycles fitsRight.valuCycles (by omega))
    (eq_of_belowLargest_eq fitsLeft.transInstrs fitsRight.transInstrs (by omega))
    (eq_of_aboveSmallest_eq fitsLeft.transCycles fitsRight.transCycles (by omega))
    (eq_of_aboveSmallest_eq fitsLeft.saluCycles fitsRight.saluCycles (by omega))

/-- No delay of bytes has a rank above the height. -/
theorem rank_le_height (fits : left.Fits) : left.rank ≤ height :=
  Nat.add_le_add (Nat.add_le_add (Nat.add_le_add (Nat.add_le_add
    (belowLargest_le fits.valuInstrs) (aboveSmallest_le fits.valuCycles))
    (belowLargest_le fits.transInstrs)) (aboveSmallest_le fits.transCycles))
    (aboveSmallest_le fits.saluCycles)

end Delay

end Wait

namespace Hazard

open Machine Wait Index

namespace Entry

/-- The other entry has more producers, stricter waits, and is visible along more edges. -/
structure Within (left right : Entry) : Prop where
  wait : left.wait ≤ right.wait
  delay : left.delay ≤ right.delay
  events : left.events ≤ right.events
  counters : left.counters ≤ right.counters
  onRead : left.onRead ≤ right.onRead
  logical : right.logical ≤ left.logical
  loads : left.loads ≤ right.loads

instance : PartialOrder Entry where
  le := Within
  le_refl _ := ⟨le_rfl, le_rfl, le_rfl, le_rfl, le_rfl, le_rfl, le_rfl⟩
  le_trans _ _ _ first second :=
    ⟨first.wait.trans second.wait, first.delay.trans second.delay,
      first.events.trans second.events, first.counters.trans second.counters,
      first.onRead.trans second.onRead, second.logical.trans first.logical,
      first.loads.trans second.loads⟩
  le_antisymm _ _ first second := Entry.ext
    (le_antisymm first.wait second.wait) (le_antisymm first.delay second.delay)
    (le_antisymm first.events second.events) (le_antisymm first.counters second.counters)
    (le_antisymm first.onRead second.onRead) (le_antisymm second.logical first.logical)
    (le_antisymm first.loads second.loads)

/-- A joined entry has all that its first part has. -/
theorem le_join (left right : Entry) : left ≤ left.join right where
  wait := Requirement.le_combine_left _ _
  delay := Delay.le_combine_left _ _
  events := FlagSet.le_or_left _ _
  counters := FlagSet.le_or_left _ _
  onRead := Bool.left_le_or _ _
  logical := Bool.and_le_left _ _
  loads := FlagSet.le_or_left _ _

/-- All numbers fit into bytes. -/
structure Fits (entry : Entry) : Prop where
  wait : entry.wait.Fits
  delay : entry.delay.Fits

/-- The rank of everything the entry knows. -/
def rank (entry : Entry) : Nat :=
  entry.wait.rank + entry.delay.rank + entry.events.rank + entry.counters.rank
    + entry.onRead.toNat + (!entry.logical).toNat + entry.loads.rank

/-- The largest rank of an entry. -/
def height : Nat :=
  Requirement.height + Delay.height + Events.family.width + Counters.family.width + 1 + 1
    + LoadKind.family.width

/-- The flag for linear control flow is set when the one for logical control flow is not. -/
theorem toNat_not_le {left right : Bool} (below : right ≤ left) :
    (!left).toNat ≤ (!right).toNat := by
  cases left <;> cases right <;> first | exact absurd below (by decide) | decide

variable {left right : Entry}

/-- Each field of a larger entry has at least the rank it has in the smaller one. -/
theorem ranks_le (below : left ≤ right) :
    left.wait.rank ≤ right.wait.rank ∧ left.delay.rank ≤ right.delay.rank ∧
      left.events.rank ≤ right.events.rank ∧ left.counters.rank ≤ right.counters.rank ∧
      left.onRead.toNat ≤ right.onRead.toNat ∧ (!left.logical).toNat ≤ (!right.logical).toNat ∧
      left.loads.rank ≤ right.loads.rank :=
  ⟨Requirement.rank_mono below.wait, Delay.rank_mono below.delay, FlagSet.rank_mono below.events,
    FlagSet.rank_mono below.counters, Bool.toNat_le_toNat below.onRead,
    toNat_not_le below.logical, FlagSet.rank_mono below.loads⟩

/-- A larger entry has a larger rank. -/
theorem rank_mono (below : left ≤ right) : left.rank ≤ right.rank := by
  have ranks := ranks_le below
  unfold rank
  omega

/-- A larger entry of no larger rank is the same one, as long as its numbers are bytes. -/
theorem eq_of_rank_le (below : left ≤ right) (fitsLeft : left.Fits) (fitsRight : right.Fits)
    (same : right.rank ≤ left.rank) : left = right := by
  have ranks := ranks_le below
  unfold rank at same
  refine Entry.ext (Requirement.eq_of_rank_le below.wait fitsRight.wait (by omega))
    (Delay.eq_of_rank_le below.delay fitsLeft.delay fitsRight.delay (by omega))
    (FlagSet.eq_of_rank_le below.events (by omega))
    (FlagSet.eq_of_rank_le below.counters (by omega)) ?_ ?_
    (FlagSet.eq_of_rank_le below.loads (by omega))
  · exact eq_of_toNat_eq (by omega)
  · exact Bool.not_inj (eq_of_toNat_eq (by omega))

/-- No entry of bytes has a rank above the height. -/
theorem rank_le_height (fits : left.Fits) : left.rank ≤ height := by
  have wait := left.wait.rank_le_height
  have delay := Delay.rank_le_height fits.delay
  have events := left.events.rank_le_width
  have counters := left.counters.rank_le_width
  have onRead := left.onRead.toNat_le
  have logical := (!left.logical).toNat_le
  have loads := left.loads.rank_le_width
  unfold rank height
  omega

end Entry

namespace Fence

/-- The other fence is for more accesses and asks for stricter waits. -/
structure Within (left right : Fence) : Prop where
  wait : left.wait ≤ right.wait
  events : left.events ≤ right.events

instance : PartialOrder Fence where
  le := Within
  le_refl _ := ⟨le_rfl, le_rfl⟩
  le_trans _ _ _ first second :=
    ⟨first.wait.trans second.wait, first.events.trans second.events⟩
  le_antisymm _ _ first second := Fence.ext
    (le_antisymm first.wait second.wait) (le_antisymm first.events second.events)

/-- A joined fence is for all accesses that its first part is for. -/
theorem le_join (left right : Fence) : left ≤ left.join right where
  wait := Requirement.le_combine_left _ _
  events := FlagSet.le_or_left _ _

/-- The rank of everything the fence knows. -/
def rank (fence : Fence) : Nat := fence.wait.rank + fence.events.rank

/-- The largest rank of a fence. -/
def height : Nat := Requirement.height + Events.family.width

variable {left right : Fence}

/-- A larger fence has a larger rank. -/
theorem rank_mono (below : left ≤ right) : left.rank ≤ right.rank :=
  Nat.add_le_add (Requirement.rank_mono below.wait) (FlagSet.rank_mono below.events)

/-- A larger fence of no larger rank is the same one, as long as its thresholds are bytes. -/
theorem eq_of_rank_le (below : left ≤ right) (fits : right.wait.Fits)
    (same : right.rank ≤ left.rank) : left = right := by
  have wait := Requirement.rank_mono below.wait
  have events := FlagSet.rank_mono below.events
  unfold rank at same
  exact Fence.ext (Requirement.eq_of_rank_le below.wait fits (by omega))
    (FlagSet.eq_of_rank_le below.events (by omega))

/-- No fence has a rank above the height. -/
theorem rank_le_height (fence : Fence) : fence.rank ≤ height :=
  Nat.add_le_add fence.wait.rank_le_height fence.events.rank_le_width

end Fence

namespace State

/-- Every entry of the first slot is in the second one, or a larger one is. -/
def SlotWithin : Option Entry → Option Entry → Prop
  | none, _ => True
  | some _, none => False
  | some left, some right => left ≤ right

/-- The other state knows of everything that is in flight, and possibly of more. -/
structure Within (left right : State) : Prop where
  inFlight : left.inFlight ≤ right.inFlight
  flatLgkm : left.flatLgkm ≤ right.flatLgkm
  flatVm : left.flatVm ≤ right.flatVm
  scalarStore : left.scalarStore ≤ right.scalarStore
  fences : ∀ index, left.fence index ≤ right.fence index
  registers : ∀ slot, SlotWithin (left.registers.get? slot) (right.registers.get? slot)

/-- States are equal when they are equal fence by fence and register by register. -/
theorem ext_fence {left right : State} (inFlight : left.inFlight = right.inFlight)
    (flatLgkm : left.flatLgkm = right.flatLgkm) (flatVm : left.flatVm = right.flatVm)
    (scalarStore : left.scalarStore = right.scalarStore)
    (fences : ∀ index, left.fence index = right.fence index)
    (registers : ∀ slot, left.registers.get? slot = right.registers.get? slot) : left = right := by
  refine State.ext inFlight flatLgkm flatVm scalarStore ?_ (SlotMap.ext_get? registers)
  apply Vector.ext
  intro position inside
  exact fences ⟨position, inside⟩

namespace SlotWithin

/-- A slot is within itself. -/
theorem refl (slot : Option Entry) : SlotWithin slot slot := by
  cases slot with
  | none => trivial
  | some entry => exact le_refl entry

/-- What is within a smaller slot is within a larger one. -/
theorem trans {first second third : Option Entry} (left : SlotWithin first second)
    (right : SlotWithin second third) : SlotWithin first third := by
  cases first with
  | none => trivial
  | some first =>
      cases second with
      | none => exact left.elim
      | some second =>
          cases third with
          | none => exact right.elim
          | some third => exact le_trans left right

/-- Slots that are within each other hold the same. -/
theorem antisymm {left right : Option Entry} (first : SlotWithin left right)
    (second : SlotWithin right left) : left = right := by
  cases left with
  | none =>
      cases right with
      | none => rfl
      | some right => exact second.elim
  | some left =>
      cases right with
      | none => exact first.elim
      | some right => exact congrArg some (le_antisymm first second)

/-- A slot that takes over an entry holds at least what it held. -/
theorem joinSlot (logical : Bool) (mine theirs : Option Entry) :
    SlotWithin mine (joinSlot logical mine theirs) := by
  cases theirs with
  | none => exact refl mine
  | some entry =>
      by_cases visible : entry.logical = logical
      · cases mine with
        | none => trivial
        | some held =>
            simp only [State.joinSlot, visible, if_true]
            exact held.le_join entry
      · simp only [State.joinSlot, visible, if_false]
        exact refl mine

end SlotWithin

instance : PartialOrder State where
  le := Within
  le_refl _ := ⟨le_rfl, le_rfl, le_rfl, le_rfl, fun _ => le_rfl, fun _ => .refl _⟩
  le_trans _ _ _ first second :=
    ⟨first.inFlight.trans second.inFlight, first.flatLgkm.trans second.flatLgkm,
      first.flatVm.trans second.flatVm, first.scalarStore.trans second.scalarStore,
      fun index => (first.fences index).trans (second.fences index),
      fun slot => (first.registers slot).trans (second.registers slot)⟩
  le_antisymm _ _ first second := ext_fence
    (le_antisymm first.inFlight second.inFlight) (le_antisymm first.flatLgkm second.flatLgkm)
    (le_antisymm first.flatVm second.flatVm) (le_antisymm first.scalarStore second.scalarStore)
    (fun index => le_antisymm (first.fences index) (second.fences index))
    (fun slot => (first.registers slot).antisymm (second.registers slot))

/-- A join knows of everything the state knew. -/
theorem le_join (state other : State) (logical : Bool) : state ≤ state.join other logical where
  inFlight := FlagSet.le_or_left _ _
  flatLgkm := Bool.left_le_or _ _
  flatVm := Bool.left_le_or _ _
  scalarStore := Bool.left_le_or _ _
  fences index := by
    rw [fence_join]
    exact Fence.le_join _ _
  registers slot := by
    rw [get?_registers_join]
    exact .joinSlot _ _ _

/-- A join enlarges the state exactly when it reports a change. -/
theorem lt_join_iff {state other : State} {logical : Bool} :
    state < state.join other logical ↔ state.grows other logical = true := by
  rw [lt_iff_le_and_ne, ← Bool.not_eq_false, ← join_eq_left_iff]
  exact ⟨fun above same => above.2 same.symm, fun differs =>
    ⟨le_join state other logical, fun same => differs same.symm⟩⟩

/-- All numbers fit into bytes. -/
structure Fits (state : State) : Prop where
  fences : ∀ index, (state.fence index).wait.Fits
  registers : ∀ slot entry, state.registers.get? slot = some entry → entry.Fits

/-- The rank of a slot: an entry counts on its own. -/
def slotRank : Option Entry → Nat
  | none => 0
  | some entry => entry.rank + 1

/-- The rank of everything the state knows. -/
def rank (state : State) : Nat :=
  state.inFlight.rank + state.flatLgkm.toNat + state.flatVm.toNat + state.scalarStore.toNat
    + ((List.finRange storageCount).map fun index => (state.fence index).rank).sum
    + ((List.finRange slotCount).map fun slot => slotRank (state.registers.get? slot)).sum

/-- The largest rank of a state. -/
def height : Nat :=
  Counters.family.width + 1 + 1 + 1 + storageCount * Fence.height
    + slotCount * (Entry.height + 1)

/-- A slot that holds more has a larger rank. -/
theorem slotRank_mono {left right : Option Entry} (below : SlotWithin left right) :
    slotRank left ≤ slotRank right := by
  cases left with
  | none => exact Nat.zero_le _
  | some left =>
      cases right with
      | none => exact below.elim
      | some right => exact Nat.succ_le_succ (Entry.rank_mono below)

/-- A slot that holds more and has no larger rank holds the same. -/
theorem eq_of_slotRank_le {left right : Option Entry} (below : SlotWithin left right)
    (fitsLeft : ∀ entry, left = some entry → entry.Fits)
    (fitsRight : ∀ entry, right = some entry → entry.Fits)
    (same : slotRank right ≤ slotRank left) : left = right := by
  cases right with
  | none =>
      cases left with
      | none => rfl
      | some left => exact below.elim
  | some right =>
      cases left with
      | none => exact absurd same (Nat.not_succ_le_zero _)
      | some left =>
          exact congrArg some (Entry.eq_of_rank_le below (fitsLeft left rfl) (fitsRight right rfl)
            (Nat.le_of_succ_le_succ same))

variable {left right : State}

/-- States of the same rank are the same where one is below the other. -/
theorem eq_of_rank_le (below : left ≤ right) (fitsLeft : left.Fits) (fitsRight : right.Fits)
    (same : right.rank ≤ left.rank) : left = right := by
  have inFlight := FlagSet.rank_mono below.inFlight
  have flatLgkm := Bool.toNat_le_toNat below.flatLgkm
  have flatVm := Bool.toNat_le_toNat below.flatVm
  have scalarStore := Bool.toNat_le_toNat below.scalarStore
  have fence (index) (_ : index ∈ List.finRange storageCount) :=
    Fence.rank_mono (below.fences index)
  have slot (slot) (_ : slot ∈ List.finRange slotCount) := slotRank_mono (below.registers slot)
  have fences := List.sum_le_sum fence
  have registers := List.sum_le_sum slot
  unfold rank at same
  refine ext_fence (FlagSet.eq_of_rank_le below.inFlight (by omega)) ?_ ?_ ?_ ?_ ?_
  · exact eq_of_toNat_eq (by omega)
  · exact eq_of_toNat_eq (by omega)
  · exact eq_of_toNat_eq (by omega)
  · intro index
    exact Fence.eq_of_rank_le (below.fences index) (fitsRight.fences index)
      (le_of_sum_map_le fence (by omega) index (List.mem_finRange index))
  · intro key
    exact eq_of_slotRank_le (below.registers key) (fitsLeft.registers key)
      (fitsRight.registers key) (le_of_sum_map_le slot (by omega) key (List.mem_finRange key))

/-- A larger state has a larger rank. -/
theorem rank_lt_of_lt (below : left < right) (fitsLeft : left.Fits) (fitsRight : right.Fits) :
    left.rank < right.rank := by
  by_contra same
  exact below.ne (eq_of_rank_le below.le fitsLeft fitsRight (Nat.le_of_not_lt same))

/-- No state of bytes has a rank above the height. -/
theorem rank_le_height (fits : left.Fits) : left.rank ≤ height := by
  have inFlight := left.inFlight.rank_le_width
  have flatLgkm := left.flatLgkm.toNat_le
  have flatVm := left.flatVm.toNat_le
  have scalarStore := left.scalarStore.toNat_le
  have fences := @sum_map_le _ (List.finRange storageCount) (fun index => (left.fence index).rank)
    Fence.height (fun index _ => (left.fence index).rank_le_height)
  have registers := @sum_map_le _ (List.finRange slotCount)
    (fun slot => slotRank (left.registers.get? slot)) (Entry.height + 1) (by
      intro slot _
      cases held : left.registers.get? slot with
      | none => exact Nat.zero_le _
      | some entry =>
          exact Nat.succ_le_succ (Entry.rank_le_height (fits.registers slot entry held)))
  rw [List.length_finRange] at fences registers
  unfold rank height
  omega

/-- Every step of a strictly ascending chain of states uses up some of the height. -/
theorem rank_add_length_le {first : State} {rest : List State}
    (ascending : (first :: rest).IsChain (· < ·)) (fits : ∀ state ∈ first :: rest, state.Fits) :
    first.rank + rest.length ≤ height := by
  induction rest generalizing first with
  | nil =>
      rw [List.length_nil, Nat.add_zero]
      exact rank_le_height (fits first List.mem_cons_self)
  | cons second rest ih =>
      obtain ⟨below, others⟩ := List.isChain_cons_cons.mp ascending
      have more := ih others fun state member => fits state (List.mem_cons_of_mem _ member)
      have rises := rank_lt_of_lt below (fits first List.mem_cons_self)
        (fits second (List.mem_cons_of_mem _ List.mem_cons_self))
      rw [List.length_cons]
      omega

/-- In a chain of ever larger states there are at most as many steps as the order is high. -/
theorem length_le_height {chain : List State} (ascending : chain.IsChain (· < ·))
    (fits : ∀ state ∈ chain, state.Fits) : chain.length ≤ height + 1 := by
  cases chain with
  | nil => exact Nat.zero_le _
  | cons first rest =>
      have steps := rank_add_length_le ascending fits
      rw [List.length_cons]
      omega

end State

end Hazard

end WaveHazard
