import WaveHazard.Proofs.Representation

/-! # Thresholds and the counters they belong to

A threshold of a register is there for a producer that is pending on its counter. Every operation on
states keeps that but one: where flat accesses are in order, a register that has waited for such an
access on one of its two counters keeps the event for the other one, and the next flat access ages
both. The threshold that has been waited for comes back as the largest one, without its counter.

What a state may be reached by is a parameter here, so that one induction treats all runs, where a
threshold without its counter is as loose as can be, and the runs in which no flat access is issued
while a register waits for half of another one, where there is none.
-/

namespace WaveHazard

open Machine Wait

namespace Machine.Generation

open WaveHazard.Hazard

variable {generation : Generation}

/-- Flat accesses are in order from GFX10 on. -/
theorem gfx10_le_of_holds_flat {events : Events} (held : events.holds .flat = true)
    (ordered : generation.isUnordered events = false) : .gfx10 ≤ generation := by
  by_contra early
  have unordered : generation.isUnordered (Events.single .flat) = true := by
    cases generation <;> first | decide | exact absurd (by decide) early
  rw [generation.isUnordered_of_holds held unordered] at ordered
  cases ordered

/-- A union has events out of order when one of its parts has. -/
theorem isUnordered_or (left right : Events) :
    generation.isUnordered (left ||| right) =
      (generation.isUnordered left || generation.isUnordered right) := by
  unfold isUnordered
  rw [Bool.eq_iff_iff, Bool.or_eq_true, FlagSet.intersects_iff, FlagSet.intersects_iff,
    FlagSet.intersects_iff]
  simp only [FlagSet.has_or, Bool.or_eq_true, and_or_left, exists_or]

end Machine.Generation

namespace Hazard

open Index

variable {generation : Generation} {setting : Setting}

namespace Entry

/-- A flat access of the entry, one of those that are in order, has been waited for on one of its
counters and is pending on the other. -/
def isHalfAwaited (generation : Generation) (entry : Entry) : Bool :=
  entry.events.holds .flat && !generation.isUnordered entry.events
    && !(entry.counters.holds .vm && entry.counters.holds .lgkm)

/-- A flat access that is in order is not half awaited when it is pending on both counters. -/
theorem isHalfAwaited_eq_false {entry : Entry} : entry.isHalfAwaited generation = false ↔
    (entry.events.holds .flat = true → generation.isUnordered entry.events = false →
      entry.counters.holds .vm = true ∧ entry.counters.holds .lgkm = true) := by
  unfold isHalfAwaited
  cases entry.events.holds .flat <;> cases generation.isUnordered entry.events <;> simp

/-- A new producer has not been waited for at all. -/
theorem isHalfAwaited_ofEvent (event : Event) (logical onRead : Bool) (loads : LoadKind)
    (cycles : Int) :
    (ofEvent generation event logical onRead loads cycles).isHalfAwaited generation = false := by
  rw [isHalfAwaited_eq_false]
  intro flat _
  change (Events.single event).holds .flat = true at flat
  rw [Events.holds_single, decide_eq_true_eq] at flat
  subst flat
  change (generation.countersOf .flat).holds .vm = true ∧
    (generation.countersOf .flat).holds .lgkm = true
  simp [Generation.holds_counted_flat]

/-- Joining entries does not make one of them half awaited. -/
theorem isHalfAwaited_join {entry other : Entry} (first : entry.isHalfAwaited generation = false)
    (second : other.isHalfAwaited generation = false) :
    (entry.join other).isHalfAwaited generation = false := by
  rw [isHalfAwaited_eq_false] at *
  intro flat ordered
  change Events.holds (entry.events ||| other.events) .flat = true at flat
  change generation.isUnordered (entry.events ||| other.events) = false at ordered
  change Counters.holds (entry.counters ||| other.counters) .vm = true ∧
    Counters.holds (entry.counters ||| other.counters) .lgkm = true
  rw [Generation.isUnordered_or, Bool.or_eq_false_iff] at ordered
  rw [Events.holds_or, Bool.or_eq_true] at flat
  rw [Counters.holds_or, Counters.holds_or, Bool.or_eq_true, Bool.or_eq_true]
  rcases flat with mine | theirs
  · exact (first mine ordered.1).imp .inl .inl
  · exact (second theirs ordered.2).imp .inr .inr

/-- Later operations do not wait for earlier ones. -/
theorem isHalfAwaited_age (entry : Entry) (event : Event) (counters : Counters) :
    (entry.age generation event counters).isHalfAwaited generation =
      entry.isHalfAwaited generation := by
  unfold Entry.age
  split <;> rfl

/-- The thresholds and the events of the entry belong to counters it is pending on. A threshold may
be `stale`, but then it is one for flat accesses, and the largest there is. -/
structure Grounded (generation : Generation) (stale : Prop) (entry : Entry) : Prop where
  bounds : ∀ counter n, entry.wait.get counter = some n → entry.counters.holds counter = true ∨
    stale ∧ .gfx10 ≤ generation ∧ (counter = .vm ∨ counter = .lgkm) ∧
      n = generation.maxThreshold counter
  counted : ∀ event counter, entry.events.holds event = true →
    (generation.counted counter).holds event = true →
      event = .flat ∨ entry.counters.holds counter = true

variable {stale : Prop} {entry other : Entry}

/-- A new producer is pending on all counters that it has a threshold for. -/
theorem grounded_ofEvent (event : Event) (logical onRead : Bool) (loads : LoadKind) (cycles : Int) :
    (ofEvent generation event logical onRead loads cycles).Grounded generation stale where
  bounds counter n bound := by
    change (Requirement.drain ∅ (generation.countersOf event).holds).get counter = some n at bound
    change (generation.countersOf event).holds counter = true ∨ _
    rw [Requirement.get_drain] at bound
    split at bound
    · rename_i counted
      exact .inl counted
    · rw [Requirement.get_empty] at bound
      cases bound
  counted known counter held counted := by
    change (Events.single event).holds known = true at held
    change _ ∨ (generation.countersOf event).holds counter = true
    rw [Events.holds_single, decide_eq_true_eq] at held
    subst held
    exact .inr (by rw [Generation.holds_countersOf, counted])

/-- The stricter threshold of two without their counters is the largest one as well. -/
theorem Grounded.join (first : entry.Grounded generation stale)
    (second : other.Grounded generation stale) :
    (entry.join other).Grounded generation stale where
  bounds counter n bound := by
    change ((entry.wait.combine other.wait).get counter) = some n at bound
    change Counters.holds (entry.counters ||| other.counters) counter = true ∨ _
    rw [Requirement.get_combine] at bound
    rw [Counters.holds_or, Bool.or_eq_true]
    cases mine : entry.wait.get counter with
    | none =>
        rw [mine] at bound
        exact (second.bounds counter n bound).imp_left .inr
    | some m =>
        cases theirs : other.wait.get counter with
        | none =>
            rw [mine, theirs] at bound
            exact (first.bounds counter n (mine.trans bound)).imp_left .inl
        | some k =>
            rw [mine, theirs] at bound
            cases bound
            rcases first.bounds counter m mine with held | ⟨_, _, _, largest⟩
            · exact .inl (.inl held)
            · rcases second.bounds counter k theirs with held | ⟨lapsed, late, flat, same⟩
              · exact .inl (.inr held)
              · exact .inr ⟨lapsed, late, flat, by rw [largest, same, Nat.min_self]⟩
  counted event counter held counted := by
    change Events.holds (entry.events ||| other.events) event = true at held
    change _ ∨ Counters.holds (entry.counters ||| other.counters) counter = true
    rw [Events.holds_or, Bool.or_eq_true] at held
    rw [Counters.holds_or, Bool.or_eq_true]
    rcases held with mine | theirs
    · exact (first.counted event counter mine counted).imp_right .inl
    · exact (second.counted event counter theirs counted).imp_right .inr

/-- Aging gives a threshold to a counter that is not pending only where a flat access is issued
behind one that has been waited for on that counter. -/
theorem Grounded.age (grounded : entry.Grounded generation stale) {event : Event}
    (settled : event = .flat → stale ∨ entry.isHalfAwaited generation = false)
    (counters : Counters) : (entry.age generation event counters).Grounded generation stale := by
  unfold Entry.age
  split
  · exact grounded
  rename_i ordered
  refine ⟨fun counter n bound => ?_, grounded.counted⟩
  dsimp only at bound ⊢
  unfold ageRequirement at bound
  rw [Requirement.get_ofFn] at bound
  split at bound
  · rename_i aged
    have only := beq_iff_eq.mp (Bool.and_eq_true_iff.mp aged).2
    have held : Events.holds (entry.events &&& generation.counted counter) event = true := by
      rw [only, Events.holds_single, decide_eq_true_eq]
    rw [Events.holds_and, Bool.and_eq_true] at held
    obtain ⟨named, counted⟩ := held
    rcases grounded.counted event counter named counted with rfl | pending
    · cases open' : entry.counters.holds counter with
      | true => exact .inl rfl
      | false =>
          -- The counter has been waited for, and the event is kept for the other one.
          have flat : counter = .vm ∨ counter = .lgkm := by
            rwa [Generation.holds_counted_flat, decide_eq_true_eq] at counted
          have half : entry.isHalfAwaited generation = true := by
            unfold isHalfAwaited
            rw [named, eq_false_of_ne_true ordered]
            rcases flat with rfl | rfl <;> simp [open']
          have lapsed : stale := (settled rfl).resolve_right (by rw [half]; exact Bool.noConfusion)
          have late := Generation.gfx10_le_of_holds_flat named (eq_false_of_ne_true ordered)
          refine .inr ⟨lapsed, late, flat, ?_⟩
          cases before : entry.wait.get counter with
          | none =>
              rw [before] at bound
              exact (Option.some.inj bound).symm
          | some m =>
              rw [before] at bound
              rcases grounded.bounds counter m before with held | ⟨_, _, _, rfl⟩
              · rw [open'] at held
                cases held
              · have same := Option.some.inj bound
                omega
    · exact .inl pending
  · exact grounded.bounds counter n bound

/-- A threshold may drop to 0 where the entry is pending. -/
theorem Grounded.drain (grounded : entry.Grounded generation stale) {chosen : Counter → Bool}
    (pending : ∀ counter, chosen counter = true → entry.counters.holds counter = true) :
    Grounded generation stale { entry with wait := entry.wait.drain chosen } where
  bounds counter n bound := by
    dsimp only at bound ⊢
    rw [Requirement.get_drain] at bound
    split at bound
    · rename_i drained
      exact .inl (pending counter drained)
    · exact grounded.bounds counter n bound
  counted := grounded.counted

/-- Forgetting a counter takes its threshold and its events along, but for the flat ones. -/
theorem grounded_keptByForgetting :
    KeptByForgetting generation (Grounded generation stale) where
  delay _ grounded := ⟨grounded.bounds, grounded.counted⟩
  dropArithmetic {entry} grounded := by
    have holds (counter : Counter) : entry.dropArithmetic.counters.holds counter =
        entry.counters.holds counter := by
      change Counters.holds (entry.counters.diff Counters.alu) counter = _
      rw [Counters.holds_diff, Counters.holds_alu, Bool.not_false, Bool.and_true]
    refine ⟨fun counter n bound => ?_, fun event counter held counted => ?_⟩
    · rw [holds]
      exact grounded.bounds counter n bound
    · change Events.holds (entry.events.diff Events.arithmetic) event = true at held
      rw [Events.holds_diff, Bool.and_eq_true] at held
      rw [holds]
      exact grounded.counted event counter held.1 counted
  dropCounter {entry} dropped grounded := by
    have holds (counter : Counter) (different : counter ≠ dropped)
        (held : entry.counters.holds counter = true) :
        (entry.dropCounter dropped (generation.counted dropped)).counters.holds counter = true := by
      change Counters.holds (entry.counters.diff (Counters.single dropped)) counter = true
      rw [Counters.holds_diff, held, Counters.holds_single, Bool.true_and, Bool.not_eq_true',
        decide_eq_false_iff_not]
      exact fun same => different same.symm
    refine ⟨fun counter n bound => ?_, fun event counter held counted => ?_⟩
    · change (entry.wait.set dropped none).get counter = some n at bound
      rw [Requirement.get_set] at bound
      split at bound
      · cases bound
      · rename_i different
        exact (grounded.bounds counter n bound).imp_left (holds counter different)
    · have kept : entry.events.holds event = true ∧
          ((generation.counted dropped).holds event = true → event = .flat) := by
        have remains : Events.holds (entry.events &&&
            ((generation.counted dropped).complement ||| Events.single .flat)) event = true := by
          unfold dropCounter at held
          dsimp only at held
          split at held
          · exact held
          · rw [Events.holds_diff, Bool.and_eq_true] at held
            exact held.1
        rw [Events.holds_and, Bool.and_eq_true, Events.holds_or, Events.holds_complement,
          Events.holds_single] at remains
        refine ⟨remains.1, fun gone => ?_⟩
        have flat := remains.2
        rw [gone, Bool.not_true, Bool.false_or, decide_eq_true_eq] at flat
        exact flat.symm
      by_cases same : counter = dropped
      · subst same
        exact .inl (kept.2 counted)
      · exact (grounded.counted event counter kept.1 counted).imp_right (holds counter same)

end Entry

/-- Whether registers wait for producers as they are issued. -/
def Effect.TracksProducers (generation : Generation) (effects : List Effect) : Prop :=
  ∀ slots entry, Effect.track slots entry ∈ effects → ∃ event logical onRead loads cycles,
    entry = .ofEvent generation event logical onRead loads cycles

namespace State

variable {state after other : State} {stale : Prop} {property : Entry → Prop}

/-- Whether no register has waited for half of a flat access when another one is issued. -/
def AdmitsFlat (generation : Generation) (state : State) (instr : Instr) : Prop :=
  instr.encoding = .flat → state.Every fun entry => entry.isHalfAwaited generation = false

/-- A property that forgetting keeps is kept by the demand of an instruction. -/
theorem Every.demand_of_kept (every : state.Every property)
    (kept : Entry.KeptByForgetting setting.generation property) {queue passed : Queue}
    {instr : Instr} {sync : Sync}
    (demanded : state.demand setting queue instr sync = .ok (after, passed)) :
    after.Every property := by
  obtain ⟨footprint, _, done⟩ := Outcome.bind_eq_ok.mp demanded
  obtain ⟨_, middle, moved, _, _, _, rfl⟩ := of_require (Except.ok.inj done)
  have crossed : middle.Every property := by
    rcases moved with rfl | rfl
    · exact every
    · exact every.pass_of_kept kept passed
  exact crossed

section Issuing

variable {effect : Effect} {effects : List Effect} {instr : Instr}

/-- Effects keep thresholds with their counters, if no flat access is counted while one of another
instruction is half awaited. -/
theorem Every.grounded_applyAll (flat : Prop)
    (every : state.Every fun entry => entry.Grounded generation stale ∧
      (flat → stale ∨ entry.isHalfAwaited generation = false))
    (tracks : Effect.TracksProducers generation effects)
    (counts : ∀ sync, Effect.count .flat sync ∈ effects → flat) :
    (state.applyAll generation effects).Every (Entry.Grounded generation stale) := by
  have kept := @Every.applyAll generation state _ effects every ?_ ?_ ?_
  · exact fun slot entry found => (kept slot entry found).1
  · rintro event sync counted entry counters ⟨grounded, settled⟩
    refine ⟨grounded.age ?_ counters, by rwa [Entry.isHalfAwaited_age]⟩
    rintro rfl
    exact settled (counts sync counted)
  · exact fun entry before _ pending => ⟨before.1.drain pending, before.2⟩
  · intro slots new tracked
    obtain ⟨event, logical, onRead, loads, cycles, rfl⟩ := tracks slots new tracked
    have fresh := @Entry.grounded_ofEvent generation stale event logical onRead loads cycles
    have full := @Entry.isHalfAwaited_ofEvent generation event logical onRead loads cycles
    exact ⟨⟨fresh, fun _ => .inr full⟩, fun held before => ⟨before.1.join fresh,
      fun counted => (before.2 counted).imp_right fun left =>
        Entry.isHalfAwaited_join left full⟩⟩

end Issuing

end State

namespace Effect

variable {known : Counters} {effects : List Effect} {instr : Instr}

/-- What an instruction makes registers wait for are producers as they are issued. -/
theorem Follows.tracksProducers (follows : Follows generation known effects) :
    TracksProducers generation effects := by
  induction follows with
  | nil known => exact fun slots entry member => absurd member List.not_mem_nil
  | count sync _ _ ih | flatLoad sync _ ih | scalarStore _ ih =>
      intro slots entry member
      rcases List.mem_cons.mp member with same | later
      · cases same
      · exact ih slots entry later
  | track slots logical onRead loads _ _ _ ih =>
      intro slots entry member
      rcases List.mem_cons.mp member with same | later
      · cases same
        exact ⟨_, logical, onRead, loads, 0, rfl⟩
      · exact ih _ entry later

/-- Only flat accesses are counted as flat. -/
theorem loadEvent_ne_flat (instr : Instr) (kind : LoadKind) :
    loadEvent generation instr kind ≠ .flat := by
  unfold loadEvent
  split
  · decide
  · split
    · split <;> decide
    · decide

/-- Only flat instructions count flat accesses. -/
theorem encoding_eq_flat (read : ofInstr generation instr = .ok effects) {sync : Sync}
    (counts : .count .flat sync ∈ effects) : instr.encoding = .flat := by
  have event : Event.flat ∈ effects.filterMap event? :=
    List.mem_filterMap.mpr ⟨_, counts, rfl⟩
  rw [(realized_of_ofInstr read).events] at event
  obtain ⟨operation, member, same⟩ := List.mem_map.mp event
  unfold operationsOf at member
  dsimp only at member
  split at member
  case h_1 =>
    split at member
    · rw [List.mem_singleton.mp member] at same
      unfold exportEvent at same
      split at same
      · cases same
      · split at same <;> cases same
    · cases member
  case h_2 encoding => exact encoding
  case h_6 | h_7 | h_8 | h_9 | h_10 =>
    unfold vectorMemoryOperations at member
    dsimp only at member
    split at member
    · rcases List.mem_cons.mp member with rfl | late
      · exact absurd same (loadEvent_ne_flat instr _)
      · rw [List.mem_singleton.mp late] at same
        cases same
    · rw [List.mem_singleton.mp member] at same
      exact absurd same (loadEvent_ne_flat instr _)
  case h_4 =>
    split at member
    · rcases List.mem_cons.mp member with rfl | lock
      · cases same
      · rw [List.mem_singleton.mp lock] at same
        cases same
    · rw [List.mem_singleton.mp member] at same
      cases same
  case h_11 | h_12 =>
    split at member
    · rw [List.mem_singleton.mp member] at same
      cases same
    · cases member
  case h_13 => cases member
  all_goals
    rw [List.mem_singleton.mp member] at same
    cases same

end Effect

namespace State

variable {state after other : State} {stale : Prop} {instr : Instr}

/-- What instructions keep, if flat ones are admitted. -/
theorem Every.grounded_issue (grounded : state.Every (Entry.Grounded generation stale))
    (admits : stale ∨ state.AdmitsFlat generation instr)
    (issued : state.issue generation instr = .ok after) :
    after.Every (Entry.Grounded generation stale) := by
  obtain ⟨effects, read, rfl⟩ := Outcome.map_eq_ok.mp issued
  have follows : Effect.Follows generation ∅ effects := Effect.follows_of_ofInstr read
  refine Every.grounded_applyAll (instr.encoding = .flat)
    (fun slot entry found => ⟨grounded slot entry found, ?_⟩) follows.tracksProducers
    fun sync counts => Effect.encoding_eq_flat read counts
  exact fun flat => admits.imp_right fun whole => whole flat slot entry found

/-- Arithmetic has no thresholds, so the entries stay grounded. -/
theorem Every.grounded_issueArithmetic {target : Target}
    (grounded : state.Every (Entry.Grounded target.generation stale))
    (issued : state.issueArithmetic target instr = .ok after) :
    after.Every (Entry.Grounded target.generation stale) := by
  obtain ⟨effects, read, done⟩ := Outcome.bind_eq_ok.mp issued
  cases done
  have tracks := Effect.tracks_of_arithmetic read
  have tracked : (state.applyAll target.generation effects).Every
      (Entry.Grounded target.generation stale) := by
    refine Every.grounded_applyAll False
      (fun slot entry found => ⟨grounded slot entry found, False.elim⟩) ?_ ?_
    · intro slots entry member
      obtain ⟨_, event, logical, onRead, loads, same, _⟩ := tracks _ member
      cases same
      exact ⟨event, logical, onRead, loads, _, rfl⟩
    · intro sync member
      obtain ⟨_, _, _, _, _, same, _⟩ := tracks _ member
      cases same
  exact tracked.ageArithmetic_of_kept Entry.grounded_keptByForgetting _ _ _ _

/-- Arguments that are being loaded are pending as any producer is. -/
theorem Every.grounded_atEntry (grounded : state.Every (Entry.Grounded generation stale))
    {program : Program} (seeded : state.atEntry generation program = .ok after) :
    after.Every (Entry.Grounded generation stale) := by
  unfold State.atEntry at seeded
  refine Outcome.foldlM_keeps (fun state => state.Every (Entry.Grounded generation stale)) seeded
    ?_ ?_
  · split
    · exact grounded
    · exact grounded
  · intro definition _ before next kept stepped
    obtain ⟨effect, defined, done⟩ := Outcome.bind_eq_ok.mp stepped
    cases done
    have follows : Effect.Follows generation ∅ [.count .vmem {}, effect] :=
      Effect.follows_of_argument defined
    refine Every.grounded_applyAll False (fun slot entry found => ⟨kept slot entry found,
      False.elim⟩) follows.tracksProducers fun sync member => ?_
    -- Arguments are loaded by vector memory.
    rcases List.mem_cons.mp member with same | later
    · cases same
    · rw [← List.mem_singleton.mp later] at defined
      obtain ⟨slots, _, done⟩ := Outcome.bind_eq_ok.mp defined
      cases done

/-- The states that come to be from the empty one, by issuing instructions that are admitted, by
moving past any queue and the needs of any instruction, by seeding what is pending at the entry of
a program, and by joins. -/
inductive Arises (target : Target) (admits : State → Instr → Prop) : State → Prop where
  | empty : Arises target admits ∅
  | issue {state after : State} {instr : Instr} : Arises target admits state →
      admits state instr → state.issue target.generation instr = .ok after →
        Arises target admits after
  | issueArithmetic {state after : State} {instr : Instr} : Arises target admits state →
      state.issueArithmetic target instr = .ok after → Arises target admits after
  | demand {setting : Setting} {state after : State} {queue passed : Queue} {instr : Instr}
      {sync : Sync} : setting.target = target → Arises target admits state →
      state.demand setting queue instr sync = .ok (after, passed) → Arises target admits after
  | atEntry {state after : State} {program : Program} : Arises target admits state →
      state.atEntry target.generation program = .ok after → Arises target admits after
  | join {state other : State} (logical : Bool) : Arises target admits state →
      Arises target admits other → Arises target admits (state.join other logical)

variable {target : Target} {admits : State → Instr → Prop}

/-- The entries of every state that comes to be are grounded, as long as flat accesses are issued
where none is half awaited, or stale thresholds are allowed for. -/
theorem grounded_of_arises (stale : Prop) (arises : Arises target admits state)
    (admitted : ∀ state instr, admits state instr →
      stale ∨ state.AdmitsFlat target.generation instr) :
    state.Every (Entry.Grounded target.generation stale) := by
  induction arises with
  | empty => exact every_empty _
  | issue _ permitted issued ih => exact ih.grounded_issue (admitted _ _ permitted) issued
  | issueArithmetic _ issued ih => exact ih.grounded_issueArithmetic issued
  | demand same _ demanded ih =>
      subst same
      exact ih.demand_of_kept Entry.grounded_keptByForgetting demanded
  | atEntry _ seeded ih => exact ih.grounded_atEntry seeded
  | join logical _ _ mine theirs => exact mine.join theirs (fun _ _ => Entry.Grounded.join) logical

/-- What an entry adds to a queue for a counter without a threshold: nothing. -/
theorem get_hazard_of_unset {entry : Entry} {counter : Counter}
    (unset : entry.wait.isSet counter = false) (setting : Setting) (instr : Instr)
    (queue : Queue) :
    (readHazard instr queue entry).wait.get counter = queue.wait.get counter ∧
      (writeHazard setting instr queue entry).wait.get counter = queue.wait.get counter := by
  have unbounded : entry.wait.get counter = none := Option.not_isSome_iff_eq_none.mp (by
    rw [← Requirement.isSet, unset]
    exact Bool.false_ne_true)
  have same : (queue.wait.get counter).stricter none = queue.wait.get counter := by
    cases queue.wait.get counter <;> rfl
  constructor
  · unfold readHazard
    split
    · rw [Requirement.get_combine, unbounded, same]
    · rfl
  · unfold writeHazard
    rw [Requirement.get_combine, Requirement.get_only, unbounded, ite_self, same]

/-- In every state that comes to be, a threshold of a register belongs to a counter the register is
pending on, except that from GFX10 on the largest threshold may stand for a load or data share
counter that has been waited for. There are no exceptions where no flat access is issued while a
register waits for half of another one: a counter that has been waited for has no threshold then,
and asks for nothing. -/
theorem thresholds_belong_to_pending_counters (arises : Arises target admits state) {slot : Slot}
    {entry : Entry} (held : state.registers.get? slot = some entry) :
    (∀ counter n, entry.wait.get counter = some n → entry.counters.holds counter = true ∨
      .gfx10 ≤ target.generation ∧ (counter = .vm ∨ counter = .lgkm) ∧
        n = target.generation.maxThreshold counter) ∧
    ((∀ state instr, admits state instr → state.AdmitsFlat target.generation instr) →
      ∀ counter, entry.counters.holds counter = false → entry.wait.isSet counter = false ∧
        ∀ setting instr queue,
          (readHazard instr queue entry).wait.get counter = queue.wait.get counter ∧
            (writeHazard setting instr queue entry).wait.get counter = queue.wait.get counter) := by
  constructor
  · intro counter n bound
    have grounded := grounded_of_arises True arises fun _ _ _ => .inl trivial
    exact ((grounded slot entry held).bounds counter n bound).imp_right And.right
  · intro careful counter idle
    have grounded := grounded_of_arises False arises
      fun state instr admitted => .inr (careful state instr admitted)
    have unset : entry.wait.isSet counter = false := by
      by_contra set
      obtain ⟨n, bound⟩ := Option.isSome_iff_exists.mp (eq_true_of_ne_false set)
      rcases (grounded slot entry held).bounds counter n bound with pending | ⟨contradiction, _⟩
      · exact Bool.noConfusion (idle.symm.trans pending)
      · exact contradiction
    exact ⟨unset, fun setting instr queue => get_hazard_of_unset unset setting instr queue⟩

namespace FlatAfterFlat

theorem first_inside : 256 < slotCount := by decide

theorem second_inside : 257 < slotCount := by decide

/-- The first vector register. -/
def first : Slot := ⟨256, first_inside⟩

/-- The next one. -/
def second : Slot := ⟨257, second_inside⟩

/-- A flat load to a vector register. -/
def load (register : Nat) : Instr :=
  { opcode := .flatLoadDword, definitions := [⟨⟨register⟩, .vector 1⟩] }

/-- The state behind a load to the first vector register. -/
def loaded : State :=
  (∅ : State).applyAll .gfx10p3 [.count .flat {}, .track [first]
    (.ofEvent .gfx10p3 .flat true true ∅ 0)]

/-- The state behind a wait for the load counter. -/
def waited : State :=
  (loaded.require { target := .ofGeneration .gfx10p3 } { wait := { vm := some 0 } }
    { opcode := .sNop } { reads := [], writes := [] } {}).1

/-- The state behind another load, to the next register. -/
def reloaded : State :=
  waited.applyAll .gfx10p3 [.count .flat {}, .track [second]
    (.ofEvent .gfx10p3 .flat true true ∅ 0)]

/-- What the first register is left with behind the wait. -/
def left : Entry :=
  { wait := { lgkm := some 0 }, events := .single .flat, counters := .single .lgkm,
    onRead := true, logical := true }

/-- A flat load ages what is pending, unless one that returns out of order is outstanding, and adds
to what its destination waits for. -/
theorem get?_load {state : State} (vm : state.flatVm = false) (lgkm : state.flatLgkm = false)
    (slot other : Slot) (entry : Entry) :
    (state.applyAll .gfx10p3 [.count .flat {}, .track [slot] entry]).registers.get? other =
      let aged (slot : Slot) := (state.registers.get? slot).map fun held =>
        held.age .gfx10p3 .flat (Generation.gfx10p3.countersOf .flat)
      if slot = other then some (((aged slot).map fun held => held.join entry).getD entry)
      else aged other := by
  have ordered : Generation.gfx10p3.isUnordered (Events.single .flat) = false := by decide
  simp only [State.applyAll, List.foldl, State.apply, State.track, State.count, State.countFences,
    ordered, vm, lgkm, Bool.false_eq_true, if_false, SlotMap.get?_alter, SlotMap.get?_map]
  congr 1
  cases state.registers.get? slot <;> rfl

/-- Behind the first load its register waits for both counters. -/
theorem get?_loaded : loaded.registers.get? first =
    some (.ofEvent .gfx10p3 .flat true true ∅ 0) := by
  have empty : (∅ : State).registers.get? first = none := SlotMap.get?_empty _
  refine (get?_load rfl rfl _ _ _).trans ?_
  dsimp only
  rw [if_pos rfl, empty]
  rfl

/-- Behind the wait for the load counter its register waits for the other one. -/
theorem get?_waited : waited.registers.get? first = some left := by
  have passes : waited.registers = (loaded.pass { target := .ofGeneration .gfx10p3 }
      { wait := { vm := some 0 } }).registers := rfl
  have early : ¬ Generation.gfx11 ≤
      Setting.generation { target := .ofGeneration .gfx10p3 } := by decide
  rw [passes]
  simp only [State.pass, SlotMap.get?_retain, if_neg early]
  rw [get?_loaded]
  decide

/-- Behind the second load its register has a threshold for both counters again. -/
theorem get?_reloaded : reloaded.registers.get? first =
    some { left with wait := { vm := some 62, lgkm := some 1 } } := by
  refine (get?_load rfl rfl _ _ _).trans ?_
  dsimp only
  rw [if_neg (by decide), get?_waited]
  decide

variable {admits : State → Instr → Prop}

/-- The wait for the load counter leads from the first load to a state that comes to be. -/
theorem arises_waited (admitted : admits ∅ (load 256)) :
    Arises (.ofGeneration .gfx10p3) admits waited := by
  have loads : (∅ : State).issue .gfx10p3 (load 256) = .ok loaded := rfl
  have waits : loaded.demand { target := .ofGeneration .gfx10p3 } { wait := { vm := some 0 } }
      { opcode := .sNop } {} = .ok (waited, { wait := { vm := some 0 } }) := rfl
  exact .demand rfl (.issue .empty admitted loads) waits

/-- The second load leads on to another one. -/
theorem arises_reloaded (early : admits ∅ (load 256)) (late : admits waited (load 257)) :
    Arises (.ofGeneration .gfx10p3) admits reloaded := by
  have loads : waited.issue .gfx10p3 (load 257) = .ok reloaded := rfl
  exact .issue (arises_waited early) late loads

theorem admitsFlat_empty (instr : Instr) : (∅ : State).AdmitsFlat .gfx10p3 instr :=
  fun _ => every_empty _

end FlatAfterFlat

open FlatAfterFlat in
/-- Behind the wait the register is pending on the data share counter, and the load counter asks
for nothing. -/
theorem load_counter_idle_behind_half_wait :
    Arises (.ofGeneration .gfx10p3) (State.AdmitsFlat .gfx10p3) waited ∧
      waited.registers.get? first = some left ∧
      left.wait.get .lgkm = some 0 ∧ left.counters.holds .vm = false ∧
      left.wait.isSet .vm = false ∧
      ∀ instr queue, (readHazard instr queue left).wait.get .vm = queue.wait.get .vm := by
  have arises := arises_waited (admitsFlat_empty (load 256))
  obtain ⟨unset, asks⟩ := (thresholds_belong_to_pending_counters arises get?_waited).2
    (fun _ _ careful => careful) .vm (by decide)
  exact ⟨arises, get?_waited, rfl, by decide, unset, fun instr queue =>
    (asks { target := .ofGeneration .gfx10p3 } instr queue).1⟩

open FlatAfterFlat in
/-- The load behind it brings a threshold for the load counter back, although the register is not
pending on that counter, and whoever reads the register waits for it. -/
theorem threshold_without_its_counter :
    Arises (.ofGeneration .gfx10p3) (fun _ _ => True) reloaded ∧
      ∃ entry, reloaded.registers.get? first = some entry ∧
        entry.counters.holds .vm = false ∧ entry.wait.get .vm = some 62 ∧
        ∀ instr, (readHazard instr ∅ entry).wait.get .vm = some 62 :=
  ⟨arises_reloaded trivial trivial, _, get?_reloaded, by decide, rfl, fun _ => rfl⟩

end State

end Hazard

end WaveHazard
