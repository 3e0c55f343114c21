import WaveHazard.Hazard.Transfer
import WaveHazard.Proofs.JoinOrder
import WaveHazard.Proofs.Tally

/-! # Fences and entries that know of an operation

A fence or the entry of a register knows of an operation in flight when it names the event of the
operation and its threshold on the counter is no larger than the room behind the operation. Waiting
for the threshold then waits for the operation.

The lemmas here follow a single fence or entry through everything that happens to it: more
operations are issued, entries are joined, and waits that do not cover the operation are passed.
-/

namespace WaveHazard.Hazard

open Machine Wait

variable {generation : Generation} {token : Token} {count more : Nat}

/-- A requirement that stands for the given events waits for an operation with some room. -/
structure Awaits (wait : Requirement) (events : Events) (token : Token) (count : Nat) : Prop where
  named : events.holds token.operation.event = true
  bounded : ∃ bound, wait.get token.counter = some bound ∧ bound ≤ count

namespace Awaits

variable {wait strict : Requirement} {events wider : Events}

/-- A stricter requirement for more events waits with more room. -/
theorem mono (awaits : Awaits wait events token count) (entails : Entails strict wait)
    (named : wider.holds token.operation.event = true) {larger : Nat} (room : count ≤ larger) :
    Awaits strict wider token larger := by
  obtain ⟨bound, asked, below⟩ := awaits.bounded
  obtain ⟨tighter, given, least⟩ := entails token.counter bound asked
  exact ⟨named, tighter, given, Nat.le_trans least (Nat.le_trans below room)⟩

/-- A requirement only grows when the operation that is issued is of the same event. -/
theorem age (awaits : Awaits wait events token count)
    (counted : (generation.counted token.counter).holds token.operation.event = true)
    {event : Event} (grown : event = token.operation.event → 1 ≤ more) (chosen : Counter → Bool) :
    Awaits (ageRequirement generation wait events (.single event) chosen) events token
      (count + more) := by
  obtain ⟨bound, asked, below⟩ := awaits.bounded
  refine ⟨awaits.named, ?_⟩
  unfold ageRequirement
  rw [Requirement.get_ofFn]
  split
  · rename_i exact
    simp only [Bool.and_eq_true, beq_iff_eq] at exact
    have same : event = token.operation.event := by
      apply Events.eq_of_holds_of_eq_single exact.2
      rw [Events.holds_and, awaits.named, counted]
      rfl
    rw [asked]
    refine ⟨min (bound + 1) (generation.maxThreshold token.counter), rfl, ?_⟩
    have one := grown same
    omega
  · exact ⟨bound, asked, by omega⟩

/-- A wait that a requirement is covered by has waited for its operations. -/
theorem not_covered (awaits : Awaits wait events token count) {passed : Requirement}
    (remains : ∀ bound, passed.get token.counter = some bound → count < bound) :
    (passed.get token.counter).covers (wait.get token.counter) = false := by
  obtain ⟨bound, asked, below⟩ := awaits.bounded
  rw [asked]
  cases met : passed.get token.counter with
  | none => rfl
  | some threshold =>
      have above := remains threshold met
      simp only [Threshold.covers, decide_eq_false_iff_not]
      omega

/-- An operation in flight is not awaited by a requirement that is met. -/
theorem absurd_of_met (awaits : Awaits wait events token count) {older younger : Flight}
    (room : count = room generation token younger) {passed : Requirement}
    (entails : ∀ bound, wait.get token.counter = some bound →
      ∃ tighter, passed.get token.counter = some tighter ∧ tighter ≤ bound)
    (met : Met passed (older ++ token :: younger)) : False := by
  obtain ⟨bound, asked, below⟩ := awaits.bounded
  obtain ⟨tighter, given, least⟩ := entails bound asked
  have above := room_lt_of_met generation met given
  omega

end Awaits

namespace Fence

variable {fence : Fence} {event : Event} {counters : Counters}

/-- A fence that records another access goes on waiting for the earlier ones, with more room. -/
theorem awaits_record (awaits : Awaits fence.wait fence.events token count) (events : Events) :
    Awaits (fence.record counters events).wait (fence.record counters events).events token
      (count + more) := by
  refine awaits.mono (entails_drain _ _) ?_ (Nat.le_add_right count more)
  change Events.holds (fence.events ||| events) _ = true
  rw [Events.holds_or, awaits.named]
  rfl

/-- An access that is recorded drains its counters. -/
theorem awaits_record_self (onCounter : counters.holds token.counter = true) :
    Awaits (fence.record counters (.single token.operation.event)).wait
      (fence.record counters (.single token.operation.event)).events token 0 := by
  constructor
  · show Events.holds (fence.events ||| _) _ = true
    simp
  · refine ⟨0, ?_, Nat.le_refl 0⟩
    change (fence.wait.drain counters.holds).get token.counter = some 0
    rw [Requirement.get_drain, if_pos onCounter]

/-- A fence that knows of an operation still does after one more operation. -/
theorem awaits_after (awaits : Awaits fence.wait fence.events token count)
    (counted : (generation.counted token.counter).holds token.operation.event = true)
    (grown : token.isUnordered generation = false → event = token.operation.event → 1 ≤ more)
    (index : Nat) (sync : Sync) :
    Awaits (fence.after generation index counters (.single event) sync).wait
      (fence.after generation index counters (.single event) sync).events token
      (count + more) := by
  unfold Fence.after
  split
  · exact awaits_record awaits _
  · unfold Fence.age
    split
    · exact awaits.mono (Entails.refl _) awaits.named (Nat.le_add_right count more)
    · rename_i ordered
      dsimp only
      refine awaits.age counted (fun same => grown ?_ same) _
      cases unordered : token.isUnordered generation with
      | false => rfl
      | true =>
          have whole := generation.isUnordered_of_holds awaits.named unordered
          simp [whole] at ordered

/-- A fence keeps what a wait does not cover. -/
theorem awaits_clearFence {setting : Setting} (awaits : Awaits fence.wait fence.events token count)
    (counted : (setting.generation.counted token.counter).holds token.operation.event = true)
    {wait : Requirement}
    (remains : ∀ bound, wait.get token.counter = some bound → count < bound) :
    Awaits (State.clearFence setting wait fence).wait
      (State.clearFence setting wait fence).events token count := by
  have uncovered := awaits.not_covered remains
  obtain ⟨bound, asked, below⟩ := awaits.bounded
  unfold State.clearFence
  extract_lets done remaining events
  have open_ : done token.counter = false := by
    change (_ && _) = false
    rw [uncovered, Bool.and_false]
  have kept : remaining.get token.counter = some bound := by
    change (fence.wait.only _).get token.counter = some bound
    rw [Requirement.get_only, open_, asked]
    rfl
  -- Flat accesses are the only ones that another counter could have forgotten.
  have named : Events.holds events token.operation.event = true := by
    have fold (finished : List Counter) (start : Events)
        (held : start.holds token.operation.event = true)
        (others : ∀ counter ∈ finished, counter ≠ token.counter) :
        Events.holds (finished.foldl (fun events counter => events &&&
          ((setting.generation.counted counter).complement ||| Events.single .flat)) start)
            token.operation.event = true := by
      induction finished generalizing start with
      | nil => exact held
      | cons counter rest ih =>
          refine ih _ ?_ fun other member => others other (List.mem_cons_of_mem _ member)
          rw [Events.holds_and, held, Events.holds_or, Events.holds_complement,
            Events.holds_single]
          cases also : (setting.generation.counted counter).holds token.operation.event with
          | false => rfl
          | true =>
              have flat := setting.generation.eq_flat_of_counted_twice also counted
                (others counter List.mem_cons_self)
              simp [flat]
    refine fold _ _ awaits.named ?_
    rintro counter member rfl
    rw [List.mem_filter, open_] at member
    exact Bool.false_ne_true member.2
  refine ⟨?_, bound, kept, below⟩
  dsimp only
  split
  · exact named
  · rename_i neither
    rw [Events.holds_diff, named, Events.holds_single]
    by_cases flat : token.operation.event = .flat
    · rw [flat, setting.generation.holds_counted_flat, decide_eq_true_eq] at counted
      rcases counted with here | here <;> rw [here] at kept <;>
        simp [Requirement.isSet, kept] at neither
    · simp [Ne.symm flat]

end Fence

/-- An entry knows of an operation; `onRead` says whether reads of the register wait for it. -/
structure Entry.Guards (entry : Entry) (onRead : Bool) (token : Token) (count : Nat) : Prop where
  pending : entry.counters.holds token.counter = true
  awaits : Awaits entry.wait entry.events token count
  read : onRead = true → entry.onRead = true

namespace Entry.Guards

variable {entry held : Entry} {onRead : Bool}

theorem mono (guards : entry.Guards onRead token count) {larger : Nat} (room : count ≤ larger) :
    entry.Guards onRead token larger :=
  { guards with awaits := guards.awaits.mono (Entails.refl _) guards.awaits.named room }

/-- A joined entry knows of the operations of its first part. -/
theorem join_left (guards : held.Guards onRead token count) (entry : Entry) :
    (held.join entry).Guards onRead token count where
  pending := by
    change Counters.holds (held.counters ||| entry.counters) token.counter = true
    rw [Counters.holds_or, guards.pending]
    rfl
  awaits := by
    refine guards.awaits.mono (entails_combine_left _ _) ?_ (Nat.le_refl count)
    change Events.holds (held.events ||| entry.events) _ = true
    rw [Events.holds_or, guards.awaits.named]
    rfl
  read := by
    intro wanted
    change (held.onRead || entry.onRead) = true
    rw [guards.read wanted]
    rfl

/-- A joined entry knows of the operations of its second part. -/
theorem join_right (guards : entry.Guards onRead token count) (held : Entry) :
    (held.join entry).Guards onRead token count where
  pending := by
    change Counters.holds (held.counters ||| entry.counters) token.counter = true
    rw [Counters.holds_or, guards.pending, Bool.or_true]
  awaits := by
    refine guards.awaits.mono (entails_combine_right _ _) ?_ (Nat.le_refl count)
    change Events.holds (held.events ||| entry.events) _ = true
    rw [Events.holds_or, guards.awaits.named, Bool.or_true]
  read := by
    intro wanted
    change (held.onRead || entry.onRead) = true
    rw [guards.read wanted, Bool.or_true]

/-- A new entry knows of the operation it was made for. -/
theorem ofEvent (counted : (generation.counted token.counter).holds token.operation.event = true)
    (logical onRead : Bool) (loads : LoadKind) (cycles : Int) :
    (Entry.ofEvent generation token.operation.event logical onRead loads cycles).Guards onRead token
      0 where
  pending := by
    change (generation.countersOf token.operation.event).holds token.counter = true
    rw [Generation.holds_countersOf, counted]
  awaits := by
    constructor
    · show (Events.single token.operation.event).holds _ = true
      simp
    · refine ⟨0, ?_, Nat.le_refl 0⟩
      change (Requirement.drain ∅ (generation.countersOf token.operation.event).holds).get _ =
        some 0
      rw [Requirement.get_drain, Generation.holds_countersOf, if_pos counted]
  read := id

/-- An entry goes on waiting for an operation, with room for those issued behind it. -/
theorem age (guards : entry.Guards onRead token count)
    (counted : (generation.counted token.counter).holds token.operation.event = true)
    {event : Event}
    (grown : token.isUnordered generation = false → event = token.operation.event → 1 ≤ more)
    (counters : Counters) :
    (entry.age generation event counters).Guards onRead token (count + more) := by
  unfold Entry.age
  split
  · exact guards.mono (Nat.le_add_right count more)
  · rename_i ordered
    refine ⟨guards.pending, ?_, guards.read⟩
    dsimp only
    refine guards.awaits.age counted (fun same => grown ?_ same) _
    cases unordered : token.isUnordered generation with
    | false => rfl
    | true => exact absurd (generation.isUnordered_of_holds guards.awaits.named unordered) ordered

/-- Draining further counters does not make an entry forget an operation. -/
theorem drain (guards : entry.Guards onRead token count) (chosen : Counter → Bool) :
    ({ entry with wait := entry.wait.drain chosen } : Entry).Guards onRead token
      (count + more) where
  pending := guards.pending
  awaits := guards.awaits.mono (entails_drain _ _) guards.awaits.named (Nat.le_add_right count more)
  read := guards.read

/-- The delay of an entry does not matter for operations in flight. -/
theorem delay (guards : entry.Guards onRead token count) (delay : Delay) :
    ({ entry with delay } : Entry).Guards onRead token count :=
  ⟨guards.pending, guards.awaits, guards.read⟩

/-- Operations in flight are no arithmetic producers. -/
theorem dropArithmetic (guards : entry.Guards onRead token count)
    (counted : (generation.counted token.counter).holds token.operation.event = true) :
    entry.dropArithmetic.Guards onRead token count where
  pending := by
    change Counters.holds (entry.counters.diff Counters.alu) token.counter = true
    rw [Counters.holds_diff, guards.pending, Counters.holds_alu]
    rfl
  awaits := by
    refine ⟨?_, guards.awaits.bounded⟩
    change Events.holds (entry.events.diff Events.arithmetic) _ = true
    rw [Events.holds_diff, guards.awaits.named, Events.holds_arithmetic,
      generation.isArithmetic_eq_false_of_counted counted]
    rfl
  read := guards.read

/-- An operation is still known when the producers on another counter are forgotten. -/
theorem dropCounter (guards : entry.Guards onRead token count)
    (counted : (generation.counted token.counter).holds token.operation.event = true)
    {counter : Counter} (other : counter ≠ token.counter) :
    (entry.dropCounter counter (generation.counted counter)).Guards onRead token count := by
  have pending : Counters.holds (entry.counters.diff (Counters.single counter)) token.counter =
      true := by
    rw [Counters.holds_diff, guards.pending, Counters.holds_single]
    simp [other]
  have flat (also : (generation.counted counter).holds token.operation.event = true) :
      token.operation.event = .flat :=
    generation.eq_flat_of_counted_twice also counted other
  have named : Events.holds (entry.events &&&
      ((generation.counted counter).complement ||| Events.single .flat)) token.operation.event =
        true := by
    rw [Events.holds_and, guards.awaits.named, Events.holds_or, Events.holds_complement,
      Events.holds_single]
    cases also : (generation.counted counter).holds token.operation.event with
    | false => rfl
    | true => simp [flat also]
  refine ⟨pending, ⟨?_, ?_⟩, guards.read⟩
  · unfold Entry.dropCounter
    dsimp only
    split
    · exact named
    · rename_i apart
      rw [Events.holds_diff, named, Events.holds_and, Events.holds_single]
      by_cases same : token.operation.event = .flat
      · rw [same, generation.holds_counted_flat, decide_eq_true_eq] at counted
        refine absurd (FlagSet.intersects_iff.mpr ⟨token.counter.index, pending, ?_⟩) apart
        change (Counters.ofList [.lgkm, .vm]).holds token.counter = true
        rw [Counters.holds_ofList]
        rcases counted with here | here <;> rw [here] <;> decide
      · simp [Ne.symm same]
  · obtain ⟨bound, asked, below⟩ := guards.awaits.bounded
    refine ⟨bound, ?_, below⟩
    change (entry.wait.set counter none).get token.counter = some bound
    rw [Requirement.get_set, if_neg (Ne.symm other), asked]

/-- An entry that knows of an operation is not done. -/
theorem unlessDone (guards : entry.Guards onRead token count) : entry.unlessDone = some entry := by
  unfold Entry.unlessDone Entry.isDone
  rw [Counters.isEmpty_eq_false guards.pending]
  rfl

/-- An entry keeps what a wait does not cover. -/
theorem clearEntry {setting : Setting} (guards : entry.Guards onRead token count)
    (counted : (setting.generation.counted token.counter).holds token.operation.event = true)
    {queue : Queue}
    (remains : ∀ bound, queue.wait.get token.counter = some bound → count < bound) :
    ∃ after, State.clearEntry setting queue entry = some after ∧
      after.Guards onRead token count := by
  have fold (counters : List Counter) (entry : Entry) (guards : entry.Guards onRead token count) :
      (counters.foldl (fun entry counter =>
        if (queue.wait.get counter).covers (entry.wait.get counter) then
          entry.dropCounter counter (setting.generation.counted counter)
        else entry) entry).Guards onRead token count := by
    induction counters generalizing entry with
    | nil => exact guards
    | cons counter rest ih =>
        apply ih
        dsimp only
        split
        · rename_i covered
          refine guards.dropCounter counted ?_
          rintro rfl
          rw [guards.awaits.not_covered remains] at covered
          exact Bool.false_ne_true covered
        · exact guards
  have cleared := fold Counter.all entry guards
  unfold State.clearEntry
  extract_lets entry source delay final
  have settled : final.Guards onRead token count := cleared.delay delay
  have result :
      (if delay.isEmpty then final.dropArithmetic else final).Guards onRead token count := by
    split
    · exact settled.dropArithmetic counted
    · exact settled
  exact ⟨_, result.unlessDone, result⟩

end Entry.Guards

end WaveHazard.Hazard
