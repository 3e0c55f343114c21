import WaveHazard.Proofs.ByteRange
import WaveHazard.Proofs.JoinLattice

/-! # The bookkeeping of entries and fences

A state records one fact in several places: a producer of a register shows in the thresholds, the
events and the counters of the entry and in the counters in flight, and an access to memory shows in
the threshold and the events of a fence. Here is what holds of an entry and of a fence, given the
counters in flight, and that every change of one keeps it.

Arithmetic producers are tracked before it is known whether they matter, so between two steps an
entry may have one whose delay is empty. What holds of an entry even then is `Entry.Sound`;
`Entry.Kept` is what holds of it afterwards.
-/

namespace WaveHazard

open Machine Wait

namespace Machine.Generation

open WaveHazard.Hazard

/-- The generation has the counter. -/
def HasCounter (generation : Generation) (counter : Counter) : Prop :=
  0 < generation.fieldMax counter

variable {generation : Generation} {event : Event} {counter : Counter}

/-- A counter that counts an event of the generation is one of the generation. -/
theorem hasCounter_of_counted (issued : generation.issues event = true)
    (counted : (generation.counted counter).holds event = true) :
    generation.HasCounter counter := by
  rw [holds_counted] at counted
  unfold HasCounter fieldMax
  cases counter <;> cases event <;> simp_all [issues]
  all_goals split <;> decide

/-- Every event that a generation issues is counted by some counter. -/
theorem exists_counter_of_issues (issued : generation.issues event = true) :
    ∃ counter, (generation.counted counter).holds event = true := by
  have listed : ∃ counter ∈ Counter.all, (generation.counted counter).holds event = true := by
    revert issued
    cases generation <;> cases event <;> decide
  obtain ⟨counter, _, counted⟩ := listed
  exact ⟨counter, counted⟩

/-- Arithmetic is not counted. -/
theorem isArithmetic_of_issues (issued : generation.issues event = true) :
    event.isArithmetic = false := by
  cases event <;> first | rfl | cases issued

end Machine.Generation

namespace Hazard

namespace Counters

/-- A flag in a set of listed counters is that of one of them. -/
theorem exists_of_has_ofList {counters : List Counter} {position : Nat}
    (held : (ofList counters).has position = true) :
    ∃ counter ∈ counters, counter.index = position := by
  have fold (counters : List Counter) (set : Counters)
      (held : (counters.foldl (fun set counter => set ||| single counter) set).has position =
        true) :
      set.has position = true ∨ ∃ counter ∈ counters, counter.index = position := by
    induction counters generalizing set with
    | nil => exact .inl held
    | cons first rest ih =>
        rcases ih _ held with early | ⟨counter, member, same⟩
        · rw [FlagSet.has_or, Bool.or_eq_true, single, FlagSet.has_flag, Bool.and_eq_true] at early
          rcases early with before | ⟨_, same⟩
          · exact .inl before
          · exact .inr ⟨first, List.mem_cons_self, of_decide_eq_true same⟩
        · exact .inr ⟨counter, List.mem_cons_of_mem _ member, same⟩
  rcases fold counters ∅ held with nothing | found
  · rw [FlagSet.has_empty] at nothing
    cases nothing
  · exact found

/-- The flag of the arithmetic pipelines is in the set. -/
def hasArithmetic (counters : Counters) : Bool := counters.has 7

@[simp] theorem hasArithmetic_or (left right : Counters) :
    hasArithmetic (left ||| right) = (left.hasArithmetic || right.hasArithmetic) :=
  FlagSet.has_or _ _ _

@[simp] theorem hasArithmetic_diff_alu (counters : Counters) :
    hasArithmetic (counters.diff alu) = false := by
  simp [hasArithmetic, alu]

@[simp] theorem hasArithmetic_diff_single (counters : Counters) (counter : Counter) :
    hasArithmetic (counters.diff (single counter)) = counters.hasArithmetic := by
  cases counter <;> simp [hasArithmetic, single, Counter.index]

/-- Meeting the arithmetic counter is having it. -/
theorem intersects_alu (counters : Counters) :
    counters.intersects alu = counters.hasArithmetic := by
  rw [Bool.eq_iff_iff, FlagSet.intersects_iff]
  constructor
  · rintro ⟨position, held, flagged⟩
    rw [alu, FlagSet.has_flag, Bool.and_eq_true] at flagged
    rw [hasArithmetic, of_decide_eq_true flagged.2]
    exact held
  · intro held
    exact ⟨7, held, by decide⟩

/-- Every flag of the set is a wait counter that the generation has. -/
def Exist (generation : Generation) (counters : Counters) : Prop :=
  ∀ position, counters.has position = true →
    ∃ counter : Counter, counter.index = position ∧ generation.HasCounter counter

variable {generation : Generation} {left right : Counters}

theorem exist_empty : Exist generation ∅ := by
  intro position held
  rw [FlagSet.has_empty] at held
  cases held

/-- Counters of the generation stay such in a union. -/
theorem Exist.or (first : left.Exist generation) (second : right.Exist generation) :
    Exist generation (left ||| right) := by
  intro position held
  rw [FlagSet.has_or, Bool.or_eq_true] at held
  exact held.elim (first position) (second position)

/-- An event is counted on counters that the generation has. -/
theorem exist_countersOf {event : Event} (issued : generation.issues event = true) :
    (generation.countersOf event).Exist generation := by
  intro position held
  unfold Generation.countersOf at held
  rw [Generation.isArithmetic_of_issues issued, if_neg Bool.false_ne_true] at held
  obtain ⟨counter, listed, same⟩ := exists_of_has_ofList held
  exact ⟨counter, same, Generation.hasCounter_of_counted issued (List.mem_filter.mp listed).2⟩

/-- A counter in a set of counters of the generation is one of the generation. -/
theorem Exist.hasCounter (exist : left.Exist generation) {counter : Counter}
    (held : left.holds counter = true) : generation.HasCounter counter := by
  obtain ⟨other, same, has⟩ := exist counter.index held
  rwa [← Counter.index_injective same]

end Counters

/-- One of the events is counted by the counter. -/
def Events.Names (generation : Generation) (events : Events) (counter : Counter) : Prop :=
  ∃ event, events.holds event = true ∧ (generation.counted counter).holds event = true

/-- More events do not take away the one that a counter counts. -/
theorem Events.Names.or_left {generation : Generation} {events : Events} {counter : Counter}
    (names : events.Names generation counter) (more : Events) :
    Events.Names generation (events ||| more) counter := by
  obtain ⟨event, held, counted⟩ := names
  exact ⟨event, by rw [Events.holds_or, held, Bool.true_or], counted⟩

/-- More events do not take away the one that a counter counts, on either side. -/
theorem Events.Names.or_right {generation : Generation} {events : Events} {counter : Counter}
    (names : events.Names generation counter) (more : Events) :
    Events.Names generation (more ||| events) counter := by
  rw [FlagSet.or_comm]
  exact names.or_left more

/-- Forgetting the events of one counter, flat accesses excepted, leaves those of the others. -/
theorem Events.holds_forget {generation : Generation} {events : Events} {event : Event}
    {counter other : Counter} (held : events.holds event = true)
    (counted : (generation.counted other).holds event = true) (different : counter ≠ other) :
    Events.holds (events &&& ((generation.counted counter).complement ||| Events.single .flat))
      event = true := by
  rw [Events.holds_and, held, Bool.true_and, Events.holds_or, Events.holds_complement,
    Events.holds_single]
  cases also : (generation.counted counter).holds event with
  | false => rfl
  | true =>
      rw [generation.eq_flat_of_counted_twice also counted different]
      rfl

end Hazard

namespace Wait

open WaveHazard.Hazard

/-- A counter that has drained is below every threshold. -/
theorem Threshold.covers_zero (threshold : Threshold) : covers (some 0) threshold = true := by
  cases threshold with
  | none => rfl
  | some n => exact decide_eq_true (Nat.zero_le n)

namespace Requirement

/-- Every threshold can be waited for, and its counter is in flight. -/
def Live (generation : Generation) (inFlight : Counters) (wait : Requirement) : Prop :=
  ∀ counter n, wait.get counter = some n →
    n ≤ generation.maxThreshold counter ∧ inFlight.holds counter = true

variable {generation : Generation} {inFlight more : Counters} {wait other : Requirement}

theorem live_empty : Live generation inFlight ∅ := by
  intro counter n bound
  rw [get_empty] at bound
  cases bound

theorem Live.mono (live : wait.Live generation inFlight) (below : inFlight ≤ more) :
    wait.Live generation more :=
  fun counter n bound => (live counter n bound).imp_right (below counter.index)

/-- The stricter of two live thresholds is live. -/
theorem Live.combine (first : wait.Live generation inFlight)
    (second : other.Live generation inFlight) : (wait.combine other).Live generation inFlight := by
  intro counter n bound
  rw [get_combine] at bound
  cases mine : wait.get counter with
  | none =>
      rw [mine] at bound
      exact second counter n bound
  | some m =>
      cases theirs : other.get counter with
      | none =>
          rw [mine, theirs] at bound
          exact first counter n (mine.trans bound)
      | some k =>
          rw [mine, theirs] at bound
          cases bound
          obtain ⟨below, held⟩ := first counter m mine
          exact ⟨(Nat.min_le_left m k).trans below, held⟩

/-- Counters in flight may be drained. -/
theorem Live.drain (live : wait.Live generation inFlight) {chosen : Counter → Bool}
    (busy : ∀ counter, chosen counter = true → inFlight.holds counter = true) :
    (wait.drain chosen).Live generation inFlight := by
  intro counter n bound
  rw [get_drain] at bound
  split at bound
  · rename_i drained
    cases bound
    exact ⟨Nat.zero_le _, busy counter drained⟩
  · exact live counter n bound

/-- Aging stops at the largest threshold, and only concerns operations in flight. -/
theorem Live.age (live : wait.Live generation inFlight) (pending issued : Events)
    {chosen : Counter → Bool}
    (busy : ∀ counter, chosen counter = true → inFlight.holds counter = true) :
    (ageRequirement generation wait pending issued chosen).Live generation inFlight := by
  intro counter n bound
  unfold ageRequirement at bound
  rw [get_ofFn] at bound
  split at bound
  · rename_i aged
    have held := busy counter (Bool.and_eq_true_iff.mp aged).1
    unfold Threshold.increment at bound
    split at bound <;> cases bound
    · exact ⟨le_rfl, held⟩
    · exact ⟨Nat.min_le_right _ _, held⟩
  · exact live counter n bound

/-- A combined requirement bounds the counters that one of its parts bounds. -/
theorem isSet_combine (wait other : Requirement) (counter : Counter) :
    (wait.combine other).isSet counter = (wait.isSet counter || other.isSet counter) := by
  unfold isSet
  rw [get_combine]
  cases wait.get counter <;> cases other.get counter <;> rfl

/-- A counter that is drained has a bound. -/
theorem isSet_drain (wait : Requirement) (chosen : Counter → Bool) (counter : Counter) :
    (wait.drain chosen).isSet counter = (chosen counter || wait.isSet counter) := by
  unfold isSet
  rw [get_drain]
  cases chosen counter <;> rfl

/-- A counter that is left out has no bound. -/
theorem isSet_only (wait : Requirement) (chosen : Counter → Bool) (counter : Counter) :
    (wait.only chosen).isSet counter = (chosen counter && wait.isSet counter) := by
  unfold isSet
  rw [get_only]
  cases chosen counter <;> rfl

/-- A bound grows with the operations issued behind it, but stays. -/
theorem isSet_age_of_isSet {pending issued : Events} {chosen : Counter → Bool} {counter : Counter}
    (set : wait.isSet counter = true) :
    (ageRequirement generation wait pending issued chosen).isSet counter = true := by
  unfold isSet ageRequirement at *
  rw [get_ofFn]
  split
  · cases wait.get counter <;> rfl
  · exact set

end Requirement

namespace Delay

/-- The distances are in range, and the scalar latency has not run out twice. -/
structure Near (delay : Delay) : Prop where
  valu : delay.valuInstrs ≤ valuNone
  trans : delay.transInstrs ≤ transNone
  salu : 0 ≤ delay.saluCycles

variable {delay other : Delay}

theorem near_empty : (∅ : Delay).Near := ⟨le_rfl, le_rfl, le_rfl⟩

/-- The closer of two producers is in range if the first one is. -/
theorem Near.combine (near : delay.Near) (other : Delay) : (delay.combine other).Near :=
  ⟨(min_le_left _ _).trans near.valu, (min_le_left _ _).trans near.trans,
    near.salu.trans (le_max_left _ _)⟩

/-- A delay that has been settled has its distances in range, whatever they were. -/
theorem near_settle (delay : Delay) : delay.settle.Near := by
  refine ⟨?_, ?_, le_max_right _ _⟩
  · unfold settle
    dsimp only
    split <;> omega
  · unfold settle
    dsimp only
    split <;> omega

/-- Both delays together do nothing exactly when neither does anything. -/
theorem isEmpty_combine (first : delay.Near) (second : other.Near) :
    (delay.combine other).isEmpty = (delay.isEmpty && other.isEmpty) := by
  obtain ⟨valu, trans, salu⟩ := first
  obtain ⟨valu', trans', salu'⟩ := second
  rw [Bool.eq_iff_iff]
  simp only [isEmpty, combine, Bool.and_eq_true, beq_iff_eq, valuNone, transNone] at *
  omega

/-- Nothing stays nothing as time goes by. -/
theorem age_empty {cycles : Int} (forward : 0 ≤ cycles) (isValu isTrans : Bool) :
    (∅ : Delay).age isValu isTrans cycles = ∅ := by
  have empty : (∅ : Delay) = ⟨5, 0, 4, 0, 0⟩ := rfl
  rw [empty]
  simp only [age, settle, clampByte, valuNone, transNone, Delay.mk.injEq]
  cases isValu <;> cases isTrans <;> simp <;> omega

/-- A delay for more producers lasts at least as long. -/
theorem maxCycles_mono (below : delay ≤ other) : delay.maxCycles ≤ other.maxCycles :=
  max_le_max (max_le_max below.saluCycles below.valuCycles) below.transCycles

end Delay

end Wait

namespace Hazard

open Index

variable {generation : Generation} {setting : Setting}

namespace Entry

/-- What holds of the entry of a register at all times, given the counters in flight. -/
structure Sound (generation : Generation) (inFlight : Counters) (entry : Entry) : Prop where
  wait : entry.wait.Live generation inFlight
  counted : ∀ counter, entry.counters.holds counter = true →
    entry.wait.isSet counter = true ∧ entry.events.Names generation counter
  near : entry.delay.Near
  /-- Only arithmetic producers have a delay. -/
  still : entry.counters.hasArithmetic = false → entry.delay = ∅

/-- What holds of the entry of a register between two instructions. -/
structure Kept (generation : Generation) (inFlight : Counters) (entry : Entry) : Prop
    extends Sound generation inFlight entry where
  pending : entry.isDone = false
  /-- Arithmetic producers have a delay. -/
  delayed : entry.counters.hasArithmetic = true → entry.delay.isEmpty = false

variable {inFlight more : Counters} {entry other : Entry}

theorem Sound.mono (sound : entry.Sound generation inFlight) (below : inFlight ≤ more) :
    entry.Sound generation more :=
  { sound with wait := sound.wait.mono below }

theorem Kept.mono (kept : entry.Kept generation inFlight) (below : inFlight ≤ more) :
    entry.Kept generation more :=
  { kept with wait := kept.wait.mono below }

/-- Joining keeps entries sound: every producer of the join is one of its parts. -/
theorem Sound.join (first : entry.Sound generation inFlight)
    (second : other.Sound generation inFlight) : (entry.join other).Sound generation inFlight where
  wait := first.wait.combine second.wait
  counted counter held := by
    change Counters.holds (entry.counters ||| other.counters) counter = true at held
    change (entry.wait.combine other.wait).isSet counter = true ∧
      Events.Names generation (entry.events ||| other.events) counter
    rw [Counters.holds_or, Bool.or_eq_true] at held
    rw [Requirement.isSet_combine]
    rcases held with mine | theirs
    · obtain ⟨set, names⟩ := first.counted counter mine
      exact ⟨by rw [set, Bool.true_or], names.or_left _⟩
    · obtain ⟨set, names⟩ := second.counted counter theirs
      exact ⟨by rw [set, Bool.or_true], names.or_right _⟩
  near := first.near.combine other.delay
  still quiet := by
    change Counters.hasArithmetic (entry.counters ||| other.counters) = false at quiet
    change entry.delay.combine other.delay = ∅
    rw [Counters.hasArithmetic_or, Bool.or_eq_false_iff] at quiet
    rw [first.still quiet.1, second.still quiet.2, Delay.combine_self]

/-- Joining keeps entries sound between two instructions. -/
theorem Kept.join (first : entry.Kept generation inFlight)
    (second : other.Kept generation inFlight) : (entry.join other).Kept generation inFlight where
  toSound := first.toSound.join second.toSound
  pending := by
    cases done : (entry.join other).isDone with
    | false => rfl
    | true =>
        have empty : entry.counters.isEmpty = true := by
          rw [FlagSet.isEmpty_iff]
          intro position
          have unset := FlagSet.isEmpty_iff.mp done position
          change (entry.counters ||| other.counters).has position = false at unset
          rw [FlagSet.has_or, Bool.or_eq_false_iff] at unset
          exact unset.1
        exact empty.symm.trans first.pending
  delayed held := by
    change Counters.hasArithmetic (entry.counters ||| other.counters) = true at held
    change (entry.delay.combine other.delay).isEmpty = false
    rw [Delay.isEmpty_combine first.near second.near]
    rw [Counters.hasArithmetic_or, Bool.or_eq_true] at held
    rcases held with mine | theirs
    · rw [first.delayed mine, Bool.false_and]
    · rw [second.delayed theirs, Bool.and_false]

/-- The entry after one more operation on counters in flight. -/
theorem Kept.age (kept : entry.Kept generation inFlight) (event : Event) {counters : Counters}
    (busy : ∀ counter, counters.holds counter = true → inFlight.holds counter = true) :
    (entry.age generation event counters).Kept generation inFlight := by
  unfold Entry.age
  split
  · exact kept
  · exact
      { kept with
        wait := kept.wait.age _ _ busy
        counted := fun counter held =>
          (kept.counted counter held).imp_left Requirement.isSet_age_of_isSet }

/-- The entry after a flat load. -/
theorem Kept.drain (kept : entry.Kept generation inFlight) {chosen : Counter → Bool}
    (busy : ∀ counter, chosen counter = true → inFlight.holds counter = true) :
    Kept generation inFlight { entry with wait := entry.wait.drain chosen } :=
  { kept with
    wait := kept.wait.drain busy
    counted := fun counter held => by
      obtain ⟨set, names⟩ := kept.counted counter held
      exact ⟨by rw [Requirement.isSet_drain, set, Bool.or_true], names⟩ }

/-- An entry stays sound when its arithmetic producers are forgotten. -/
theorem Sound.dropArithmetic (sound : entry.Sound generation inFlight) :
    entry.dropArithmetic.Sound generation inFlight where
  wait := sound.wait
  counted counter held := by
    change Counters.holds (entry.counters.diff Counters.alu) counter = true at held
    rw [Counters.holds_diff, Counters.holds_alu, Bool.not_false, Bool.and_true] at held
    obtain ⟨set, event, named, counted⟩ := sound.counted counter held
    refine ⟨set, event, ?_, counted⟩
    change Events.holds (entry.events.diff Events.arithmetic) event = true
    rw [Events.holds_diff, named, Events.holds_arithmetic,
      generation.isArithmetic_eq_false_of_counted counted]
    rfl
  near := Delay.near_empty
  still _ := rfl

/-- Dropping a counter drops its threshold and its events together. -/
theorem Sound.dropCounter (sound : entry.Sound generation inFlight) (counter : Counter) :
    (entry.dropCounter counter (generation.counted counter)).Sound generation inFlight where
  wait := by
    intro other n bound
    change (entry.wait.set counter none).get other = some n at bound
    rw [Requirement.get_set] at bound
    split at bound
    · cases bound
    · exact sound.wait other n bound
  counted := by
    intro other held
    have remains : Counters.holds (entry.counters.diff (Counters.single counter)) other = true :=
      held
    rw [Counters.holds_diff, Counters.holds_single, Bool.and_eq_true, Bool.not_eq_true',
      decide_eq_false_iff_not] at remains
    obtain ⟨set, event, named, counted⟩ := sound.counted other remains.1
    have forgotten := Events.holds_forget named counted remains.2
    refine ⟨?_, event, ?_, counted⟩
    · change (entry.wait.set counter none).isSet other = true
      unfold Requirement.isSet
      rw [Requirement.get_set, if_neg fun same => remains.2 same.symm]
      exact set
    · unfold Entry.dropCounter
      dsimp only
      split
      · exact forgotten
      · rename_i apart
        -- A flat access would be counted by a counter that remains.
        rw [Events.holds_diff, forgotten, Events.holds_and, Events.holds_single, Bool.true_and,
          Bool.not_eq_true', Bool.and_eq_false_imp]
        intro _
        rw [decide_eq_false_iff_not]
        rintro rfl
        rw [generation.holds_counted_flat, decide_eq_true_eq] at counted
        refine apart (FlagSet.intersects_iff.mpr ⟨other.index, held, ?_⟩)
        change (Counters.ofList [.lgkm, .vm]).holds other = true
        rw [Counters.holds_ofList]
        rcases counted with rfl | rfl <;> decide
  near := sound.near
  still quiet := by
    change Counters.hasArithmetic (entry.counters.diff (Counters.single counter)) = false at quiet
    rw [Counters.hasArithmetic_diff_single] at quiet
    exact sound.still quiet

/-- An entry whose delay has changed, without its arithmetic producers if nothing is left of the
delay. -/
theorem Sound.settled (sound : entry.Sound generation inFlight) {delay : Delay} (near : delay.Near)
    (still : entry.delay = ∅ → delay = ∅)
    (kept : (if delay.isEmpty then { entry with delay }.dropArithmetic
      else { entry with delay }).unlessDone = some other) : other.Kept generation inFlight := by
  have changed : Sound generation inFlight { entry with delay } :=
    { sound with near, still := fun quiet => still (sound.still quiet) }
  split at kept
  · obtain ⟨pending, rfl⟩ := unlessDone_eq_some.mp kept
    refine { changed.dropArithmetic with pending, delayed := fun held => ?_ }
    have arithmetic : Counters.hasArithmetic (entry.counters.diff Counters.alu) = true := held
    rw [Counters.hasArithmetic_diff_alu] at arithmetic
    cases arithmetic
  · rename_i left
    obtain ⟨pending, rfl⟩ := unlessDone_eq_some.mp kept
    exact { changed with pending, delayed := fun _ => eq_false_of_ne_true left }

/-- The entry of a register whose producer has been counted. -/
theorem sound_ofEvent {event : Event} (counted : ∀ counter,
      (generation.counted counter).holds event = true → inFlight.holds counter = true)
    (logical onRead : Bool) (loads : LoadKind) {cycles : Int} (forward : 0 ≤ cycles) :
    (ofEvent generation event logical onRead loads cycles).Sound generation inFlight where
  wait := Requirement.live_empty.drain fun counter held =>
    counted counter (by rwa [Generation.holds_countersOf] at held)
  counted counter held := by
    have counts : (generation.countersOf event).holds counter = true := held
    refine ⟨?_, event, ?_, by rwa [Generation.holds_countersOf] at counts⟩
    · change (Requirement.drain ∅ (generation.countersOf event).holds).isSet counter = true
      rw [Requirement.isSet_drain, counts, Bool.true_or]
    · change (Events.single event).holds event = true
      rw [Events.holds_single, decide_eq_true_eq]
  near := by
    have empty := Delay.near_empty
    unfold ofEvent
    dsimp only
    split
    · exact { empty with valu := (by decide : (0 : Int) ≤ 5) }
    · exact { empty with trans := (by decide : (0 : Int) ≤ 4) }
    · exact { empty with salu := forward }
    · exact empty
  still quiet := by
    have arithmetic : event.isArithmetic = false := by
      cases isArithmetic : event.isArithmetic with
      | false => rfl
      | true =>
          change (generation.countersOf event).hasArithmetic = false at quiet
          unfold Generation.countersOf at quiet
          rw [isArithmetic, if_pos rfl, Counters.hasArithmetic_or, Bool.or_eq_false_iff] at quiet
          cases quiet.2
    cases event <;> first | rfl | cases arithmetic

/-- The entry of a register whose producer is in flight is pending. -/
theorem kept_ofEvent {event : Event} (issued : generation.issues event = true)
    (below : generation.countersOf event ≤ inFlight) (logical onRead : Bool) (loads : LoadKind) :
    (ofEvent generation event logical onRead loads 0).Kept generation inFlight where
  toSound := sound_ofEvent (fun counter counted => below counter.index (by
    have held : (generation.countersOf event).holds counter = true := by
      rw [Generation.holds_countersOf, counted]
    exact held)) logical onRead loads le_rfl
  pending := by
    obtain ⟨counter, counted⟩ := Generation.exists_counter_of_issues issued
    exact Counters.isEmpty_eq_false (by
      change (generation.countersOf event).holds counter = true
      rw [Generation.holds_countersOf, counted])
  delayed held := by
    change (generation.countersOf event).hasArithmetic = true at held
    obtain ⟨counter, same, _⟩ := Counters.exist_countersOf issued 7 held
    cases counter <;> cases same

end Entry

namespace Fence

/-- What holds of the fence of a kind of memory, given the counters in flight. -/
structure Sound (generation : Generation) (inFlight : Counters) (fence : Fence) : Prop where
  wait : fence.wait.Live generation inFlight
  /-- Every threshold is for one of the events. -/
  names : ∀ counter, fence.wait.isSet counter = true → fence.events.Names generation counter
  /-- Every event has a threshold. -/
  bound : ∀ position, fence.events.has position = true → ∃ event : Event, event.index = position ∧
    ∃ counter, (generation.counted counter).holds event = true ∧ fence.wait.isSet counter = true

variable {inFlight more : Counters} {fence other : Fence}

theorem Sound.mono (sound : fence.Sound generation inFlight) (below : inFlight ≤ more) :
    fence.Sound generation more :=
  { sound with wait := sound.wait.mono below }

/-- A fence without accesses is sound. -/
theorem sound_empty : Sound generation inFlight {} where
  wait := Requirement.live_empty
  names counter set := by
    change ((∅ : Requirement).get counter).isSome = true at set
    rw [Requirement.get_empty] at set
    cases set
  bound position held := by
    change (∅ : Events).has position = true at held
    rw [FlagSet.has_empty] at held
    cases held

/-- Joining keeps fences sound. -/
theorem Sound.join (first : fence.Sound generation inFlight)
    (second : other.Sound generation inFlight) : (fence.join other).Sound generation inFlight where
  wait := first.wait.combine second.wait
  names counter set := by
    change (fence.wait.combine other.wait).isSet counter = true at set
    change Events.Names generation (fence.events ||| other.events) counter
    rw [Requirement.isSet_combine, Bool.or_eq_true] at set
    exact set.elim (fun mine => (first.names counter mine).or_left _)
      fun theirs => (second.names counter theirs).or_right _
  bound position held := by
    change (fence.events ||| other.events).has position = true at held
    rw [FlagSet.has_or, Bool.or_eq_true] at held
    rcases held with mine | theirs
    · obtain ⟨event, same, counter, counted, set⟩ := first.bound position mine
      refine ⟨event, same, counter, counted, ?_⟩
      change (fence.wait.combine other.wait).isSet counter = true
      rw [Requirement.isSet_combine, set, Bool.true_or]
    · obtain ⟨event, same, counter, counted, set⟩ := second.bound position theirs
      refine ⟨event, same, counter, counted, ?_⟩
      change (fence.wait.combine other.wait).isSet counter = true
      rw [Requirement.isSet_combine, set, Bool.or_true]

/-- Recording an access adds its event and the thresholds of its counters. -/
theorem Sound.record (sound : fence.Sound generation inFlight) {event : Event}
    (issued : generation.issues event = true) (below : generation.countersOf event ≤ inFlight) :
    (fence.record (generation.countersOf event) (.single event)).Sound generation inFlight where
  wait := sound.wait.drain fun counter held => below counter.index held
  names counter set := by
    change (fence.wait.drain (generation.countersOf event).holds).isSet counter = true at set
    change Events.Names generation (fence.events ||| Events.single event) counter
    rw [Requirement.isSet_drain, Bool.or_eq_true] at set
    rcases set with drained | before
    · rw [Generation.holds_countersOf] at drained
      exact Events.Names.or_right ⟨event, by simp, drained⟩ _
    · exact (sound.names counter before).or_left _
  bound position held := by
    change (fence.events ||| Events.single event).has position = true at held
    change ∃ other : Event, other.index = position ∧ ∃ counter,
      (generation.counted counter).holds other = true ∧
        (fence.wait.drain (generation.countersOf event).holds).isSet counter = true
    rw [FlagSet.has_or, Bool.or_eq_true] at held
    rcases held with before | single
    · obtain ⟨other, same, counter, counted, set⟩ := sound.bound position before
      exact ⟨other, same, counter, counted, by rw [Requirement.isSet_drain, set, Bool.or_true]⟩
    · rw [Events.single, FlagSet.has_flag, Bool.and_eq_true] at single
      obtain ⟨counter, counted⟩ := Generation.exists_counter_of_issues issued
      refine ⟨event, of_decide_eq_true single.2, counter, counted, ?_⟩
      rw [Requirement.isSet_drain, Generation.holds_countersOf, counted, Bool.true_or]

/-- Aging a fence only raises thresholds that are set. -/
theorem Sound.age (sound : fence.Sound generation inFlight) (counters : Counters)
    (events : Events) : (fence.age generation counters events).Sound generation inFlight := by
  unfold Fence.age
  split
  · exact sound
  · have isSet (counter : Counter) :
        (ageRequirement generation fence.wait fence.events events fun counter =>
          counters.holds counter && fence.wait.isSet counter).isSet counter =
            fence.wait.isSet counter := by
      cases set : fence.wait.isSet counter with
      | true => exact Requirement.isSet_age_of_isSet set
      | false =>
          have same : (ageRequirement generation fence.wait fence.events events fun counter =>
              counters.holds counter && fence.wait.isSet counter).get counter =
                fence.wait.get counter := by
            simp [ageRequirement, set]
          rw [Requirement.isSet, same]
          exact set
    refine ⟨sound.wait.age _ _ ?_, ?_, ?_⟩
    · intro counter chosen
      obtain ⟨n, bound⟩ := Option.isSome_iff_exists.mp (Bool.and_eq_true_iff.mp chosen).2
      exact (sound.wait counter n bound).2
    · intro counter set
      rw [isSet] at set
      exact sound.names counter set
    · intro position held
      obtain ⟨event, same, counter, counted, set⟩ := sound.bound position held
      exact ⟨event, same, counter, counted, by rw [isSet]; exact set⟩

/-- A fence stays sound when an access is issued, which it has a threshold for. -/
theorem Sound.after (sound : fence.Sound generation inFlight) {event : Event}
    (issued : generation.issues event = true) (below : generation.countersOf event ≤ inFlight)
    (index : Nat) (sync : Sync) :
    (fence.after generation index (generation.countersOf event) (.single event) sync).Sound
      generation inFlight := by
  unfold Fence.after
  split
  · exact sound.record issued below
  · exact sound.age _ _

/-- What forgetting the events of several counters leaves. -/
theorem holds_foldl_forget (drained : List Counter) (events : Events) (event : Event) :
    Events.holds (drained.foldl (fun events counter =>
      events &&& ((generation.counted counter).complement ||| Events.single .flat)) events) event =
      (events.holds event &&
        drained.all fun counter => !(generation.counted counter).holds event || event = .flat) := by
  induction drained generalizing events with
  | nil => simp
  | cons first rest ih =>
      rw [List.foldl_cons, ih, Events.holds_and, Events.holds_or, Events.holds_complement,
        Events.holds_single, List.all_cons, Bool.and_assoc]
      simp only [eq_comm]

/-- Forgetting events adds none. -/
theorem has_of_foldl_forget {drained : List Counter} {events : Events} {position : Nat}
    (held : (drained.foldl (fun events counter =>
      events &&& ((generation.counted counter).complement ||| Events.single .flat)) events).has
        position = true) : events.has position = true := by
  induction drained generalizing events with
  | nil => exact held
  | cons first rest ih =>
      have kept := ih held
      rw [FlagSet.has_and, Bool.and_eq_true] at kept
      exact kept.1

/-- A wait that is over clears thresholds and events together. -/
theorem Sound.clear (sound : fence.Sound setting.generation inFlight) {wait : Requirement}
    {left : Counters} (remain : ∀ counter, inFlight.holds counter = true →
      wait.get counter ≠ some 0 → left.holds counter = true) :
    (State.clearFence setting wait fence).Sound setting.generation left := by
  unfold State.clearFence
  extract_lets done remaining events
  have isSet (counter : Counter) :
      remaining.isSet counter = (!done counter && fence.wait.isSet counter) :=
    Requirement.isSet_only _ _ _
  refine ⟨?_, ?_, ?_⟩
  · intro counter n bound
    change remaining.get counter = some n at bound
    rw [Requirement.get_only] at bound
    split at bound
    · rename_i open'
      obtain ⟨below, busy⟩ := sound.wait counter n bound
      refine ⟨below, remain counter busy fun drained => ?_⟩
      have settled : done counter = true := by
        change (fence.wait.isSet counter && (wait.get counter).covers (fence.wait.get counter)) = _
        rw [Requirement.isSet, bound, drained, Threshold.covers_zero]
        rfl
      rw [settled] at open'
      cases open'
    · cases bound
  · intro counter set
    have remains := set
    rw [isSet, Bool.and_eq_true, Bool.not_eq_true'] at remains
    obtain ⟨event, held, counted⟩ := sound.names counter remains.2
    have kept : Events.holds events event = true := by
      rw [holds_foldl_forget, held, Bool.true_and, List.all_eq_true]
      intro other listed
      have settled := (List.mem_filter.mp listed).2
      cases also : (setting.generation.counted other).holds event with
      | false => rfl
      | true =>
          have different : other ≠ counter := by
            rintro rfl
            rw [remains.1] at settled
            cases settled
          rw [setting.generation.eq_flat_of_counted_twice also counted different]
          rfl
    refine ⟨event, ?_, counted⟩
    dsimp only
    split
    · exact kept
    · rename_i idle
      rw [Events.holds_diff, kept, Events.holds_single, Bool.true_and, Bool.not_eq_true',
        decide_eq_false_iff_not]
      rintro rfl
      rw [Generation.holds_counted_flat, decide_eq_true_eq] at counted
      refine idle ?_
      rcases counted with rfl | rfl
      · rw [set, Bool.true_or]
      · rw [set, Bool.or_true]
  · intro position held
    have kept : events.has position = true ∧
        (position = Event.flat.index → (remaining.isSet .vm || remaining.isSet .lgkm) = true) := by
      dsimp only at held
      split at held
      · rename_i busy
        exact ⟨held, fun _ => busy⟩
      · rw [FlagSet.has_diff, Bool.and_eq_true] at held
        refine ⟨held.1, ?_⟩
        rintro rfl
        exact absurd held.2 (by decide)
    obtain ⟨event, rfl, counter, counted, set⟩ := sound.bound position (has_of_foldl_forget kept.1)
    refine ⟨event, rfl, ?_⟩
    cases settled : done counter with
    | false => exact ⟨counter, counted, by rw [isSet, settled, set]; rfl⟩
    | true =>
        -- Of what the wait is for only a flat access is left, for its other counter.
        have named : Events.holds events event = true := kept.1
        rw [holds_foldl_forget, Bool.and_eq_true, List.all_eq_true] at named
        have flat := named.2 counter (List.mem_filter.mpr ⟨counter.mem_all, settled⟩)
        rw [counted, Bool.not_true, Bool.false_or, decide_eq_true_eq] at flat
        subst flat
        have busy := kept.2 rfl
        rw [Bool.or_eq_true] at busy
        rcases busy with loads | shares
        · exact ⟨.vm, by rw [Generation.holds_counted_flat]; rfl, loads⟩
        · exact ⟨.lgkm, by rw [Generation.holds_counted_flat]; rfl, shares⟩

end Fence

/-- What a wait and a delay leave of an entry. -/
theorem Entry.kept_of_clearEntry {inFlight left : Counters} {entry other : Entry} {queue : Queue}
    (sound : entry.Sound setting.generation inFlight)
    (remain : ∀ counter, inFlight.holds counter = true → queue.wait.get counter ≠ some 0 →
      left.holds counter = true)
    (cleared : State.clearEntry setting queue entry = some other) :
    other.Kept setting.generation left := by
  -- Counter by counter, what has drained loses its threshold.
  have fold (counters : List Counter) (held : Entry)
      (sound : held.Sound setting.generation inFlight) :
      let rest := counters.foldl (fun held counter =>
        if (queue.wait.get counter).covers (held.wait.get counter) then
          held.dropCounter counter (setting.generation.counted counter)
        else held) held
      rest.Sound setting.generation inFlight ∧ ∀ counter, queue.wait.get counter = some 0 →
        counter ∈ counters ∨ held.wait.get counter = none → rest.wait.get counter = none := by
    induction counters generalizing held with
    | nil =>
        refine ⟨sound, fun counter _ known => known.resolve_left List.not_mem_nil⟩
    | cons first rest ih =>
        by_cases covered : (queue.wait.get first).covers (held.wait.get first) = true
        · rw [List.foldl_cons, if_pos covered]
          obtain ⟨kept, unset⟩ := ih _ (sound.dropCounter first)
          refine ⟨kept, fun counter drained known => unset counter drained ?_⟩
          have dropped (other : Counter) : (held.dropCounter first
              (setting.generation.counted first)).wait.get other =
                if other = first then none else held.wait.get other :=
            Requirement.get_set _ _ _ _
          rw [dropped]
          rcases known with member | dropped
          · rcases List.mem_cons.mp member with rfl | later
            · exact .inr (if_pos rfl)
            · exact .inl later
          · exact .inr (by rw [dropped, ite_self])
        · rw [List.foldl_cons, if_neg covered]
          obtain ⟨kept, unset⟩ := ih held sound
          refine ⟨kept, fun counter drained known => unset counter drained ?_⟩
          rcases known with member | dropped
          · rcases List.mem_cons.mp member with rfl | later
            · rw [drained] at covered
              exact absurd (Threshold.covers_zero _) covered
            · exact .inl later
          · exact .inr dropped
  unfold State.clearEntry at cleared
  extract_lets rest source delay settled at cleared
  obtain ⟨kept, unset⟩ := fold Counter.all entry sound
  have live : rest.Sound setting.generation left :=
    { kept with
      wait := fun counter n bound => by
        obtain ⟨below, busy⟩ := kept.wait counter n bound
        refine ⟨below, remain counter busy fun drained => ?_⟩
        rw [unset counter drained (.inl counter.mem_all)] at bound
        cases bound }
  refine live.settled (Delay.near_settle _) ?_ cleared
  intro nothing
  have empty : (∅ : Delay) = ⟨5, 0, 4, 0, 0⟩ := rfl
  simp [source, nothing, empty, Delay.settle, Delay.valuNone, Delay.transNone]

end Hazard

end WaveHazard
