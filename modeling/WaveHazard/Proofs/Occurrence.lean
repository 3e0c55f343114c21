import WaveHazard.Proofs.Passing

/-! # The states that occur

A state occurs when instructions, waits, joins and whatever is pending at the entry of a program
lead to it. In contrast to `State.Reachable` accesses to local memory may be pending at the entry;
they show in the fences only, so the books of the registers are in order in every state that occurs.

What all operations keep of an entry is collected in `Entry.Lasting`: it holds of every entry of
every state that occurs.
-/

namespace WaveHazard.Hazard

open Machine Wait Index

variable {generation : Generation} {setting : Setting} {target : Target}

namespace State

variable {state after other : State} {instr : Instr}

/-- The states that occur from the empty one on: behind instructions, waits, the entry of a program
and joins. The latencies of a queued delay are not below zero, and arithmetic results are tracked
from GFX11 on. -/
inductive Occurs (target : Target) : State → Prop where
  | empty : Occurs target ∅
  | issue {state after : State} {instr : Instr} : Occurs target state →
      state.issue target.generation instr = .ok after → Occurs target after
  | issueArithmetic {state after : State} {instr : Instr} : .gfx11 ≤ target.generation →
      Occurs target state → state.issueArithmetic target instr = .ok after → Occurs target after
  | demand {setting : Setting} {state after : State} {queue passed : Queue} {instr : Instr}
      {sync : Sync} : setting.target = target → 0 ≤ queue.delay.maxCycles →
      Occurs target state → state.demand setting queue instr sync = .ok (after, passed) →
        Occurs target after
  | atEntry {state after : State} {program : Program} : Occurs target state →
      state.atEntry target.generation program = .ok after → Occurs target after
  | join {state other : State} (logical : Bool) : Occurs target state →
      Occurs target other → Occurs target (state.join other logical)

/-- States that can be reached occur. -/
theorem Reachable.occurs (reachable : Reachable target state) : Occurs target state := by
  induction reachable with
  | empty => exact .empty
  | issue _ issued ih => exact .issue ih issued
  | issueArithmetic recent _ issued ih => exact .issueArithmetic recent ih issued
  | demand same forward _ demanded ih => exact .demand same forward ih demanded
  | atEntry _ _ seeded ih => exact .atEntry ih seeded
  | join logical _ _ mine theirs => exact .join logical mine theirs

section Fences

/-- What an effect does to everything but the fences does not depend on the fences. -/
theorem apply_fences (generation : Generation) (state : State)
    (fences : Vector Fence storageCount) (effect : Effect) :
    ∃ others, apply generation { state with fences } effect =
      { state.apply generation effect with fences := others } := by
  cases effect with
  | count event sync =>
      change ∃ others, State.count generation { state with fences } event sync =
        { state.count generation event sync with fences := others }
      unfold State.count
      dsimp only
      split <;> exact ⟨_, rfl⟩
  | flatLoad sync => exact ⟨_, rfl⟩
  | track slots entry => exact ⟨_, rfl⟩
  | scalarStore => exact ⟨_, rfl⟩

/-- The fences have no influence on what effects do to the rest of a state. -/
theorem applyAll_fences (generation : Generation) (state : State)
    (fences : Vector Fence storageCount) (effects : List Effect) :
    ∃ others, applyAll generation { state with fences } effects =
      { state.applyAll generation effects with fences := others } := by
  induction effects generalizing state fences with
  | nil => exact ⟨fences, rfl⟩
  | cons first rest ih =>
      obtain ⟨others, applied⟩ := apply_fences generation state fences first
      obtain ⟨last, done⟩ := ih (state.apply generation first) others
      refine ⟨last, ?_⟩
      rw [applyAll, List.foldl_cons, applied]
      exact done

end Fences

/-- The books of the registers are in order: only counters that exist are in flight, and the entries
are what they should be. -/
structure Tracked (generation : Generation) (state : State) : Prop where
  counters : state.inFlight.Exist generation
  registers : state.Every (Entry.Kept generation state.inFlight)

namespace Tracked

/-- Without its fences, a state whose registers are in order is sound. -/
theorem sound (tracked : state.Tracked generation) :
    Sound generation { state with fences := Vector.replicate storageCount {} } where
  counters := tracked.counters
  registers := tracked.registers
  fences index := by
    have empty : State.fence { state with fences := Vector.replicate storageCount {} } index = {} :=
      Vector.getElem_replicate ..
    rw [empty]
    exact Fence.sound_empty

/-- The books of the registers are in order when those of a state with the same registers are. -/
theorem of_sound (sound : other.Sound generation) (inFlight : other.inFlight = state.inFlight)
    (registers : other.registers = state.registers) : state.Tracked generation where
  counters := inFlight ▸ sound.counters
  registers := by
    rw [← inFlight]
    intro slot entry found
    exact sound.registers slot entry (registers ▸ found)

theorem join (mine : state.Tracked generation) (theirs : other.Tracked generation)
    (logical : Bool) : (state.join other logical).Tracked generation :=
  of_sound (mine.sound.join theirs.sound logical) rfl rfl

/-- Effects that count before registers wait keep the books of the registers in order. -/
theorem applyAll (tracked : state.Tracked generation) {effects : List Effect}
    (follows : Effect.Follows generation ∅ effects) :
    (state.applyAll generation effects).Tracked generation := by
  obtain ⟨others, same⟩ := applyAll_fences generation state
    (Vector.replicate storageCount {}) effects
  have below : (∅ : Counters) ≤ state.inFlight := fun position held => by
    rw [FlagSet.has_empty] at held
    cases held
  have sound := tracked.sound.applyAll follows below
  rw [same] at sound
  exact of_sound sound rfl rfl

theorem issue (tracked : state.Tracked generation)
    (issued : state.issue generation instr = .ok after) : after.Tracked generation := by
  obtain ⟨effects, read, rfl⟩ := Outcome.map_eq_ok.mp issued
  exact tracked.applyAll (Effect.follows_of_ofInstr read)

/-- Arithmetic keeps the books of the registers in order. -/
theorem issueArithmetic (tracked : state.Tracked target.generation)
    (issued : state.issueArithmetic target instr = .ok after) :
    after.Tracked target.generation := by
  obtain ⟨effects, read, done⟩ := Outcome.bind_eq_ok.mp issued
  cases done
  obtain ⟨others, same⟩ := applyAll_fences target.generation state
    (Vector.replicate storageCount {}) effects
  have again : State.issueArithmetic target
      { state with fences := Vector.replicate storageCount {} } instr =
        .ok (State.ageArithmetic { state.applyAll target.generation effects with fences := others }
          (instr.isVector && !instr.isMatrix) instr.isTrans (forgetsArithmetic instr)
          (instr.issueCycles target)) := by
    refine Outcome.bind_eq_ok.mpr ⟨effects, read, ?_⟩
    rw [same]
    rfl
  exact of_sound (tracked.sound.issueArithmetic again) rfl rfl

/-- Moving past a queue keeps the books of the registers in order. -/
theorem pass (tracked : state.Tracked setting.generation) {queue : Queue}
    (forward : 0 ≤ queue.delay.maxCycles) :
    (state.pass setting queue).Tracked setting.generation := by
  refine of_sound (tracked.sound.pass forward) ?_ ?_
  all_goals
    unfold State.pass
    dsimp only
    split <;> rfl

/-- The demand of an instruction keeps the books of the registers in order. -/
theorem demand (tracked : state.Tracked setting.generation) {queue passed : Queue} {sync : Sync}
    (forward : 0 ≤ queue.delay.maxCycles)
    (demanded : state.demand setting queue instr sync = .ok (after, passed)) :
    after.Tracked setting.generation := by
  obtain ⟨footprint, _, done⟩ := Outcome.bind_eq_ok.mp demanded
  have required := Except.ok.inj done
  have later := forward.trans (Delay.maxCycles_mono (delay_le_of_require required))
  obtain ⟨_, middle, moved, flatVm, flatLgkm, scalarStore, rfl⟩ := of_require required
  have crossed : middle.Tracked setting.generation := by
    rcases moved with rfl | rfl
    · exact tracked
    · exact tracked.pass later
  exact ⟨crossed.counters, crossed.registers⟩

/-- Seeding arguments keeps the books of the registers in order. -/
theorem atEntry (tracked : state.Tracked generation) {program : Program}
    (seeded : state.atEntry generation program = .ok after) : after.Tracked generation := by
  refine Outcome.foldlM_keeps (Tracked generation) seeded ?_ ?_
  · split
    · exact ⟨tracked.counters, tracked.registers⟩
    · exact tracked
  · intro definition _ before next kept stepped
    obtain ⟨effect, defined, done⟩ := Outcome.bind_eq_ok.mp stepped
    cases done
    exact kept.applyAll (Effect.follows_of_argument defined)

end Tracked

/-- The books of the registers are in order in every state that occurs. -/
theorem tracked_of_occurs (occurs : Occurs target state) : state.Tracked target.generation := by
  induction occurs with
  | empty => exact ⟨Counters.exist_empty, every_empty _⟩
  | issue _ issued ih => exact ih.issue issued
  | issueArithmetic _ _ issued ih => exact ih.issueArithmetic issued
  | demand same forward _ demanded ih =>
      subst same
      exact ih.demand forward demanded
  | atEntry _ seeded ih => exact ih.atEntry seeded
  | join logical _ _ mine theirs => exact mine.join theirs logical

end State

/-- What all operations keep of an entry: joins, one more operation, a flat load, forgetting
producers, and the entry of a new producer. From GFX11 on producers may be arithmetic. -/
structure Entry.Lasting (generation : Generation) (property : Entry → Prop) : Prop where
  forgetting : Entry.KeptByForgetting generation property
  join : ∀ {held new : Entry}, property held → property new → property (held.join new)
  age : ∀ {entry : Entry} (event : Event) (counters : Counters), property entry →
    property (entry.age generation event counters)
  drain : ∀ {entry : Entry} {chosen : Counter → Bool}, property entry →
    (∀ counter, chosen counter = true → entry.counters.holds counter = true) →
      property { entry with wait := entry.wait.drain chosen }
  fresh : ∀ {event : Event} (logical onRead : Bool) (loads : LoadKind) (cycles : Int),
    generation.issues event = true ∨ .gfx11 ≤ generation →
      property (.ofEvent generation event logical onRead loads cycles)

namespace State

variable {state after other : State} {instr : Instr} {property : Entry → Prop}

/-- What all operations keep of an entry is kept by the effects of an instruction, if new entries
have it. -/
theorem Every.lasting_applyAll (every : state.Every property)
    (lasting : Entry.Lasting generation property) {effects : List Effect}
    (new : ∀ slots entry, Effect.track slots entry ∈ effects → property entry) :
    (state.applyAll generation effects).Every property := by
  induction effects generalizing state with
  | nil => exact every
  | cons first rest ih =>
      refine ih (every.apply ?_ ?_ ?_) fun slots entry member =>
        new slots entry (List.mem_cons_of_mem _ member)
      · exact fun event _ _ entry counters before => lasting.age event counters before
      · exact fun entry before chosen pending => lasting.drain before pending
      · rintro slots entry rfl
        have tracked := new slots entry List.mem_cons_self
        exact ⟨tracked, fun held before => lasting.join before tracked⟩

/-- The producers that an instruction gives to registers are new ones. -/
theorem property_of_follows (lasting : Entry.Lasting generation property) {known : Counters}
    {effects : List Effect} (follows : Effect.Follows generation known effects) :
    ∀ slots entry, Effect.track slots entry ∈ effects → property entry := by
  induction follows with
  | nil known => exact fun slots entry member => absurd member List.not_mem_nil
  | count sync _ _ ih | flatLoad sync _ ih | scalarStore _ ih =>
      intro slots entry member
      rcases List.mem_cons.mp member with same | later
      · cases same
      · exact ih slots entry later
  | track slots logical onRead loads issued _ _ ih =>
      intro slots entry member
      rcases List.mem_cons.mp member with same | later
      · cases same
        exact lasting.fresh logical onRead loads 0 (.inl issued)
      · exact ih slots entry later

/-- The producers that arithmetic gives to registers are new ones as well. -/
theorem property_of_arithmetic (lasting : Entry.Lasting generation property)
    (recent : .gfx11 ≤ generation) {latency : Int} {effects : List Effect}
    (read : Effect.arithmetic generation instr latency = .ok effects) :
    ∀ slots entry, Effect.track slots entry ∈ effects → property entry := by
  intro slots entry member
  obtain ⟨_, event, logical, onRead, loads, same, _⟩ := Effect.tracks_of_arithmetic read _ member
  cases same
  exact lasting.fresh logical onRead loads _ (.inr recent)

/-- Effects that count before registers wait keep what all operations keep. -/
theorem Every.lasting_follows (every : state.Every property)
    (lasting : Entry.Lasting generation property) {effects : List Effect}
    (follows : Effect.Follows generation ∅ effects) :
    (state.applyAll generation effects).Every property :=
  every.lasting_applyAll lasting (property_of_follows lasting follows)

/-- What all operations keep of an entry holds of every entry of a state that occurs. -/
theorem every_of_occurs (lasting : Entry.Lasting target.generation property)
    (occurs : Occurs target state) : state.Every property := by
  induction occurs with
  | empty => exact every_empty _
  | issue _ issued ih =>
      obtain ⟨effects, read, rfl⟩ := Outcome.map_eq_ok.mp issued
      exact ih.lasting_follows lasting (Effect.follows_of_ofInstr read)
  | issueArithmetic recent _ issued ih =>
      obtain ⟨effects, read, done⟩ := Outcome.bind_eq_ok.mp issued
      cases done
      have tracked := ih.lasting_applyAll lasting (property_of_arithmetic lasting recent read)
      exact tracked.ageArithmetic_of_kept lasting.forgetting _ _ _ _
  | demand same _ _ demanded ih =>
      subst same
      exact ih.demand_of_kept lasting.forgetting demanded
  | atEntry _ seeded ih =>
      refine Outcome.foldlM_keeps (fun state => state.Every property) seeded ?_ ?_
      · split
        · exact ih
        · exact ih
      · intro definition _ before next kept stepped
        obtain ⟨effect, defined, done⟩ := Outcome.bind_eq_ok.mp stepped
        cases done
        exact kept.lasting_follows lasting (Effect.follows_of_argument defined)
  | join logical _ _ mine theirs =>
      exact mine.join theirs (fun _ _ left right => lasting.join left right) logical

end State

namespace Entry

/-- That thresholds belong to pending counters is lasting, stale ones aside. -/
theorem lasting_grounded : Lasting generation (Grounded generation True) where
  forgetting := grounded_keptByForgetting
  join first second := first.join second
  age _ counters grounded := grounded.age (fun _ => .inl trivial) counters
  drain grounded pending := grounded.drain pending
  fresh logical onRead loads cycles _ := grounded_ofEvent _ logical onRead loads cycles

/-- A flat access of the entry is pending on one of its counters. -/
def AwaitsFlat (entry : Entry) : Prop :=
  entry.events.holds .flat = true →
    entry.counters.holds .vm = true ∨ entry.counters.holds .lgkm = true

/-- That a flat access is pending on one of its counters is lasting. -/
theorem lasting_awaitsFlat : Lasting generation AwaitsFlat where
  forgetting :=
    { delay := fun _ awaits => awaits
      dropArithmetic := fun {entry} awaits flat => by
        change Events.holds (entry.events.diff Events.arithmetic) .flat = true at flat
        change Counters.holds (entry.counters.diff Counters.alu) .vm = true ∨
          Counters.holds (entry.counters.diff Counters.alu) .lgkm = true
        simp only [Events.holds_diff, Bool.and_eq_true] at flat
        simpa using awaits flat.1
      dropCounter := fun {entry} counter awaits flat => by
        unfold dropCounter at flat ⊢
        dsimp only at flat ⊢
        split at flat
        · rename_i open'
          obtain ⟨position, remains, named⟩ := FlagSet.intersects_iff.mp open'
          obtain ⟨other, listed, rfl⟩ := Counters.exists_of_has_ofList named
          simp only [List.mem_cons, List.not_mem_nil, or_false] at listed
          rcases listed with rfl | rfl
          · exact .inr remains
          · exact .inl remains
        · rename_i closed
          -- The counter that is dropped is not one of a flat access, so nothing has changed.
          simp only [Events.holds_diff, Events.holds_and, Bool.and_eq_true, Events.holds_single,
            decide_true, Bool.and_true, Bool.not_eq_true', Generation.holds_counted_flat,
            decide_eq_false_iff_not, not_or] at flat
          obtain ⟨⟨before, _⟩, notLoads, notShares⟩ := flat
          simpa [notLoads, notShares] using awaits before }
  join {held new} first second flat := by
    change Events.holds (held.events ||| new.events) .flat = true at flat
    change Counters.holds (held.counters ||| new.counters) .vm = true ∨
      Counters.holds (held.counters ||| new.counters) .lgkm = true
    simp only [Events.holds_or, Counters.holds_or, Bool.or_eq_true] at flat ⊢
    rcases flat with mine | theirs
    · exact (first mine).imp .inl .inl
    · exact (second theirs).imp .inr .inr
  age {entry} event counters awaits := by
    unfold Entry.age
    split <;> exact awaits
  drain awaits _ := awaits
  fresh {event} _ _ _ _ _ flat := by
    change (Events.single event).holds .flat = true at flat
    change (generation.countersOf event).holds .vm = true ∨ _
    rw [Events.holds_single, decide_eq_true_eq] at flat
    subst flat
    rw [Generation.holds_countersOf, Generation.holds_counted_flat]
    exact .inl rfl

/-- Before GFX11 no entry has arithmetic producers. -/
theorem lasting_unarithmetic : Lasting generation fun entry =>
    .gfx11 ≤ generation ∨ entry.counters.hasArithmetic = false where
  forgetting :=
    { delay := fun _ known => known
      dropArithmetic := fun known => known.imp_right fun _ => Counters.hasArithmetic_diff_alu _
      dropCounter := fun counter known => known.imp_right fun quiet =>
        (Counters.hasArithmetic_diff_single _ counter).trans quiet }
  join {held new} first second := by
    rcases first with recent | mine
    · exact .inl recent
    · refine second.imp_right fun theirs => ?_
      change Counters.hasArithmetic (held.counters ||| new.counters) = false
      rw [Counters.hasArithmetic_or, mine, theirs]
      rfl
  age {entry} event counters known := by
    unfold Entry.age
    split <;> exact known
  drain known _ := known
  fresh {event} _ _ _ _ issued := by
    refine issued.symm.imp_right fun issues => ?_
    change (generation.countersOf event).hasArithmetic = false
    by_contra held
    obtain ⟨counter, same, _⟩ :=
      Counters.exist_countersOf issues 7 (eq_true_of_ne_false held)
    cases counter <;> cases same

end Entry

end WaveHazard.Hazard
