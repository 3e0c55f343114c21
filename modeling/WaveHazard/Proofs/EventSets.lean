import Mathlib.Tactic.ByContra
import WaveHazard.Hazard.CounterModel

/-! # Events and counters flag by flag

Sets of events and counters are words. The lemmas here say what each operation does to a single
flag, so that proofs about the analysis never look at the bits. The counter model is described the
same way: an event is counted by a counter or it is not, and only flat accesses are counted twice.
-/

namespace WaveHazard

namespace FlagSet

variable {family : FlagFamily}

/-- A set is empty when it has no flag. -/
theorem isEmpty_iff {set : FlagSet family} :
    set.isEmpty = true ↔ ∀ position, set.has position = false := by
  constructor
  · intro empty position
    have zero : set.bits = BitVec.zero _ := by simpa [isEmpty] using empty
    change set.bits.getLsbD position = false
    rw [zero]
    exact BitVec.getLsbD_zero
  · intro blank
    have zero : set = ∅ := ext_has fun position => by rw [blank, has_empty]
    subst zero
    change (BitVec.zero family.width == BitVec.zero family.width) = true
    exact beq_self_eq_true _

/-- A set with a flag is not empty. -/
theorem isEmpty_eq_false {set : FlagSet family} {position : Nat}
    (flagged : set.has position = true) : set.isEmpty = false := by
  cases empty : set.isEmpty with
  | false => rfl
  | true => exact absurd (isEmpty_iff.mp empty position) (by simp [flagged])

/-- Two sets intersect when they share a flag. -/
theorem intersects_iff {left right : FlagSet family} :
    left.intersects right = true ↔
      ∃ position, left.has position = true ∧ right.has position = true := by
  constructor
  · intro shared
    by_contra apart
    have empty : (left &&& right).isEmpty = true := by
      rw [isEmpty_iff]
      intro position
      rw [has_and]
      cases first : left.has position with
      | false => rfl
      | true =>
          cases second : right.has position with
          | false => rfl
          | true => exact absurd ⟨position, first, second⟩ apart
    simp [intersects, empty] at shared
  · rintro ⟨position, first, second⟩
    have flagged : (left &&& right).has position = true := by simp [first, second]
    have nonempty := isEmpty_eq_false flagged
    simp [intersects, nonempty]

/-- What remains of the first set is empty when the second set has all its flags. -/
theorem diff_isEmpty_iff {left right : FlagSet family} :
    (left.diff right).isEmpty = true ↔ right ||| left = right := by
  rw [isEmpty_iff]
  constructor
  · intro blank
    apply ext_has
    intro position
    have flag := blank position
    rw [has_diff] at flag
    rw [has_or]
    cases first : left.has position <;> cases second : right.has position <;> simp_all
  · intro same position
    rw [has_diff, ← same, has_or]
    cases left.has position <;> simp

/-- The flags outside of a set, where all flags of the family have names. -/
theorem has_complement (set : FlagSet family) {position : Nat}
    (named : position < family.names.length) (inside : family.names.length ≤ family.width) :
    set.complement.has position = !set.has position := by
  have whole : (all : FlagSet family).has position = true := by
    change (BitVec.ofNat family.width (1 <<< family.names.length - 1)).getLsbD position = true
    rw [BitVec.getLsbD_ofNat, Nat.one_shiftLeft, Nat.testBit_two_pow_sub_one]
    simp [named, Nat.lt_of_lt_of_le named inside]
  unfold complement
  rw [has_and, whole, Bool.and_true]
  simp [has, Nat.lt_of_lt_of_le named inside]

theorem or_assoc (first second third : FlagSet family) :
    first ||| second ||| third = first ||| (second ||| third) :=
  ext_has fun position => by simp [Bool.or_assoc]

theorem or_comm (left right : FlagSet family) : left ||| right = right ||| left :=
  ext_has fun position => by simp [Bool.or_comm]

theorem or_self (set : FlagSet family) : set ||| set = set :=
  ext_has fun position => by simp

end FlagSet

namespace Hazard

open Machine Wait

namespace Event

/-- Every event has a flag of its own. -/
theorem index_lt (event : Event) : event.index < Events.family.names.length := by
  cases event <;> decide

end Event

namespace Events

/-- Whether an event is in the set. -/
def holds (events : Events) (event : Event) : Bool := events.has event.index

@[simp] theorem holds_empty (event : Event) : (∅ : Events).holds event = false :=
  FlagSet.has_empty _

@[simp] theorem holds_or (left right : Events) (event : Event) :
    Events.holds (left ||| right) event = (left.holds event || right.holds event) :=
  FlagSet.has_or _ _ _

@[simp] theorem holds_and (left right : Events) (event : Event) :
    Events.holds (left &&& right) event = (left.holds event && right.holds event) :=
  FlagSet.has_and _ _ _

@[simp] theorem holds_diff (left right : Events) (event : Event) :
    Events.holds (left.diff right) event = (left.holds event && !right.holds event) :=
  FlagSet.has_diff _ _ _

@[simp] theorem holds_complement (events : Events) (event : Event) :
    Events.holds events.complement event = !events.holds event :=
  FlagSet.has_complement _ event.index_lt (by decide)

@[simp] theorem holds_single (event other : Event) :
    (single event).holds other = decide (event = other) := by
  cases event <;> cases other <;> rfl

@[simp] theorem holds_ofList (events : List Event) (event : Event) :
    (ofList events).holds event = decide (event ∈ events) := by
  have fold (set : Events) :
      Events.holds (events.foldl (fun set event => set ||| single event) set) event =
        (set.holds event || decide (event ∈ events)) := by
    induction events generalizing set with
    | nil => simp
    | cons first rest ih =>
        rw [List.foldl_cons, ih, holds_or, holds_single, Bool.or_assoc]
        congr 1
        by_cases same : first = event
        · simp [same]
        · simp [same, Ne.symm same]
  unfold ofList
  rw [fold, holds_empty, Bool.false_or]

@[simp] theorem holds_arithmetic (event : Event) :
    arithmetic.holds event = event.isArithmetic := by
  cases event <;> rfl

/-- A set with an event is not empty. -/
theorem isEmpty_eq_false {events : Events} {event : Event} (held : events.holds event = true) :
    events.isEmpty = false :=
  FlagSet.isEmpty_eq_false held

/-- A set that is one event has no other. -/
theorem eq_of_holds_of_eq_single {events : Events} {event only : Event}
    (single : events = Events.single only) (held : events.holds event = true) : only = event := by
  subst single
  simpa using held

end Events

namespace Counters

@[simp] theorem holds_empty (counter : Counter) : (∅ : Counters).holds counter = false :=
  FlagSet.has_empty _

@[simp] theorem holds_or (left right : Counters) (counter : Counter) :
    Counters.holds (left ||| right) counter = (left.holds counter || right.holds counter) :=
  FlagSet.has_or _ _ _

@[simp] theorem holds_diff (left right : Counters) (counter : Counter) :
    Counters.holds (left.diff right) counter = (left.holds counter && !right.holds counter) :=
  FlagSet.has_diff _ _ _

@[simp] theorem holds_single (counter other : Counter) :
    (single counter).holds other = decide (counter = other) := by
  cases counter <;> cases other <;> rfl

@[simp] theorem holds_alu (counter : Counter) : alu.holds counter = false := by
  cases counter <;> rfl

@[simp] theorem holds_ofList (counters : List Counter) (counter : Counter) :
    (ofList counters).holds counter = decide (counter ∈ counters) := by
  have fold (set : Counters) :
      Counters.holds (counters.foldl (fun set counter => set ||| single counter) set) counter =
        (set.holds counter || decide (counter ∈ counters)) := by
    induction counters generalizing set with
    | nil => simp
    | cons first rest ih =>
        rw [List.foldl_cons, ih, holds_or, holds_single, Bool.or_assoc]
        congr 1
        by_cases same : first = counter
        · simp [same]
        · simp [same, Ne.symm same]
  unfold ofList
  rw [fold, holds_empty, Bool.false_or]

/-- The wait counters of a set are listed. -/
theorem mem_toList {counters : Counters} {counter : Counter} :
    counter ∈ counters.toList ↔ counters.holds counter = true := by
  unfold toList
  rw [List.mem_filter]
  exact ⟨fun both => both.2, fun held => ⟨counter.mem_all, held⟩⟩

/-- A set with a wait counter is not empty. -/
theorem isEmpty_eq_false {counters : Counters} {counter : Counter}
    (held : counters.holds counter = true) : counters.isEmpty = false :=
  FlagSet.isEmpty_eq_false held

end Counters

end Hazard

namespace Machine.Generation

open WaveHazard.Wait WaveHazard.Hazard

variable (generation : Generation)

/-- The counters of an event are those that count it. -/
@[simp] theorem holds_countersOf (event : Event) (counter : Counter) :
    (generation.countersOf event).holds counter = (generation.counted counter).holds event := by
  have waits : (Counters.ofList (Counter.all.filter fun counter =>
      (generation.counted counter).has event.index)).holds counter =
        (generation.counted counter).holds event := by
    rw [Counters.holds_ofList]
    simp [counter.mem_all, Events.holds]
  unfold countersOf
  split
  · rw [Counters.holds_or, waits, Counters.holds_alu, Bool.or_false]
  · exact waits

/-- The counters of an event, generation by generation. -/
theorem holds_counted (counter : Counter) (event : Event) :
    (generation.counted counter).holds event =
      match counter, event with
      | .exp, .expPos | .exp, .expParam | .exp, .expMrtNull | .exp, .gdsGprLock
      | .exp, .vmemGprLock | .exp, .ldsdir => true
      | .lgkm, .lds | .lgkm, .gds | .lgkm, .flat => true
      | .lgkm, .smem | .lgkm, .sendmsg => !decide (.gfx12 ≤ generation)
      | .vm, .vmem | .vm, .flat => true
      | .vs, .vmemStore => true
      | .sample, .vmemSample | .bvh, .vmemBvh | .km, .smem | .km, .sendmsg =>
          decide (.gfx12 ≤ generation)
      | _, _ => false := by
  by_cases latest : gfx12 ≤ generation <;> cases counter <;>
    simp only [counted, latest, if_true, if_false, Events.holds_ofList, Events.holds_empty] <;>
    cases event <;> rfl

/-- Only flat accesses are counted by two counters. -/
theorem eq_flat_of_counted_twice {event : Event} {first second : Counter}
    (onFirst : (generation.counted first).holds event = true)
    (onSecond : (generation.counted second).holds event = true) (different : first ≠ second) :
    event = .flat := by
  rw [holds_counted] at onFirst onSecond
  cases event <;> cases first <;> cases second <;> simp_all

/-- Flat accesses are counted as loads and as data share accesses. -/
theorem holds_counted_flat (counter : Counter) :
    (generation.counted counter).holds .flat = decide (counter = .vm ∨ counter = .lgkm) := by
  rw [holds_counted]
  cases counter <;> rfl

/-- Results of arithmetic pipelines are not counted. -/
theorem isArithmetic_eq_false_of_counted {event : Event} {counter : Counter}
    (counted : (generation.counted counter).holds event = true) : event.isArithmetic = false := by
  rw [holds_counted] at counted
  cases event <;> first | rfl | (cases counter <;> cases counted)

/-- A set of events is unordered when one of its events is. -/
theorem isUnordered_of_holds {events : Events} {event : Event} (held : events.holds event = true)
    (unordered : generation.isUnordered (Events.single event) = true) :
    generation.isUnordered events = true := by
  unfold isUnordered at unordered ⊢
  obtain ⟨position, flagged, named⟩ := FlagSet.intersects_iff.mp unordered
  have same : position = event.index := by
    rw [Events.single, FlagSet.has_flag] at named
    simp only [Bool.and_eq_true, decide_eq_true_eq] at named
    exact named.2.symm
  subst same
  exact FlagSet.intersects_iff.mpr ⟨event.index, flagged, held⟩

end Machine.Generation

end WaveHazard
