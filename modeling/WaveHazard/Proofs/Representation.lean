import WaveHazard.Proofs.Bookkeeping
import WaveHazard.Proofs.Needs
import WaveHazard.Proofs.Visits

/-! # The states that can be reached

Effects that count an operation before registers wait for it keep the bookkeeping of a state in
order, and so do all other operations on states. By induction every state that can be reached has
its books in order, and with it every state that the analysis of a program finds.
-/

namespace WaveHazard.Hazard

open Machine Wait Index

variable {generation : Generation} {setting : Setting}

namespace State

/-- The books of the state are in order: only counters that exist are in flight, and the entries and
the fences are what they should be. -/
structure Sound (generation : Generation) (state : State) : Prop where
  counters : state.inFlight.Exist generation
  registers : state.Every (Entry.Kept generation state.inFlight)
  fences : ∀ index, (state.fence index).Sound generation state.inFlight

variable {state other after : State} {event : Event}

/-- In the empty state there is nothing to keep in order. -/
theorem sound_empty : Sound generation ∅ where
  counters := Counters.exist_empty
  registers := every_empty _
  fences index := by
    have empty : (∅ : State).fence index = {} := Vector.getElem_replicate ..
    rw [empty]
    exact Fence.sound_empty

/-- Aging settles which arithmetic producers still matter. -/
theorem Every.ageArithmetic {inFlight : Counters}
    (every : state.Every (Entry.Sound generation inFlight)) (isValu isTrans forget : Bool)
    {cycles : Int} (forward : 0 ≤ cycles) :
    (state.ageArithmetic isValu isTrans forget cycles).Every (Entry.Kept generation inFlight) := by
  intro slot entry kept
  unfold State.ageArithmetic at kept
  dsimp only at kept
  rw [SlotMap.get?_retain] at kept
  obtain ⟨held, found, done⟩ := Option.bind_eq_some_iff.mp kept
  have before := every slot held found
  split at done
  · exact before.settled Delay.near_empty (fun _ => rfl) done
  · have near : (held.delay.age isValu isTrans cycles).Near := Delay.near_settle _
    exact before.settled near (fun nothing => by rw [nothing, Delay.age_empty forward]) done

/-- Joining states keeps the books in order. -/
theorem Sound.join (mine : state.Sound generation) (theirs : other.Sound generation)
    (logical : Bool) : (state.join other logical).Sound generation := by
  have below : state.inFlight ≤ state.inFlight ||| other.inFlight ∧
      other.inFlight ≤ state.inFlight ||| other.inFlight := FlagSet.or_le_iff.mp le_rfl
  refine ⟨mine.counters.or theirs.counters, ?_, ?_⟩
  · exact Every.join (fun slot entry held => (mine.registers slot entry held).mono below.1)
      (fun slot entry held => (theirs.registers slot entry held).mono below.2)
      (fun _ _ left right => left.join right) logical
  · intro index
    rw [fence_join]
    exact ((mine.fences index).mono below.1).join ((theirs.fences index).mono below.2)

/-- Counting an operation of the generation keeps the books in order. -/
theorem Sound.count (sound : state.Sound generation) (issued : generation.issues event = true)
    (sync : Sync) : (state.count generation event sync).Sound generation := by
  have below : state.inFlight ≤ state.inFlight ||| generation.countersOf event ∧
      generation.countersOf event ≤ state.inFlight ||| generation.countersOf event :=
    FlagSet.or_le_iff.mp le_rfl
  refine ⟨?_, ?_, ?_⟩
  · rw [inFlight_count]
    exact sound.counters.or (Counters.exist_countersOf issued)
  · rw [inFlight_count]
    intro slot entry held
    unfold State.count at held
    dsimp only at held
    split at held
    · exact (sound.registers slot entry held).mono below.1
    · rw [SlotMap.get?_map] at held
      obtain ⟨before, found, rfl⟩ := Option.map_eq_some_iff.mp held
      refine ((sound.registers slot before found).mono below.1).age event fun counter chosen => ?_
      -- Counters with a flat load outstanding are left out.
      refine below.2 counter.index (show (generation.countersOf event).holds counter = true from ?_)
      revert chosen
      split <;> split <;> simp +contextual
  · intro index
    have counts : (Effect.count event sync).operation? = some (event, sync) := rfl
    have counted : (state.count generation event sync).fence index = _ := fence_apply counts index
    rw [counted, inFlight_count]
    exact ((sound.fences index).mono below.1).after issued below.2 index sync

/-- A flat load keeps the books in order. -/
theorem Sound.flatLoad (sound : state.Sound generation) (sync : Sync) :
    (state.flatLoad generation sync).Sound generation := by
  have issued : generation.issues .flat = true := rfl
  have below : state.inFlight ≤ state.inFlight ||| generation.countersOf .flat ∧
      generation.countersOf .flat ≤ state.inFlight ||| generation.countersOf .flat :=
    FlagSet.or_le_iff.mp le_rfl
  have inFlight : (state.flatLoad generation sync).inFlight =
      state.inFlight ||| generation.countersOf .flat := by
    rw [countersOf_flat]
    rfl
  refine ⟨?_, ?_, ?_⟩
  · rw [inFlight]
    exact sound.counters.or (Counters.exist_countersOf issued)
  · rw [inFlight]
    intro slot entry held
    unfold State.flatLoad at held
    dsimp only at held
    rw [SlotMap.get?_map] at held
    obtain ⟨before, found, rfl⟩ := Option.map_eq_some_iff.mp held
    refine ((sound.registers slot before found).mono below.1).drain fun counter chosen => ?_
    rw [← @countersOf_flat generation] at chosen
    exact below.2 counter.index (Bool.and_eq_true_iff.mp chosen).1
  · intro index
    have counts : (Effect.flatLoad sync).operation? = some (.flat, sync) := rfl
    have counted : (state.flatLoad generation sync).fence index = _ := fence_apply counts index
    rw [counted, inFlight]
    exact ((sound.fences index).mono below.1).after issued below.2 index sync

/-- Effects that follow keep the books in order. -/
theorem Sound.applyAll (sound : state.Sound generation) {known : Counters} {effects : List Effect}
    (follows : Effect.Follows generation known effects) (below : known ≤ state.inFlight) :
    (state.applyAll generation effects).Sound generation := by
  induction follows generalizing state with
  | nil known => exact sound
  | count sync issued _ ih =>
      refine ih (sound.count issued sync) ?_
      change _ ≤ (state.count generation _ sync).inFlight
      rw [inFlight_count]
      obtain ⟨older, newer⟩ := FlagSet.or_le_iff.mp (le_refl (state.inFlight ||| _))
      exact FlagSet.or_le_iff.mpr ⟨below.trans older, newer⟩
  | flatLoad sync _ ih =>
      refine ih (sound.flatLoad sync) ?_
      change _ ≤ state.inFlight ||| Counters.ofList [.lgkm, .vm]
      rw [countersOf_flat]
      obtain ⟨older, newer⟩ := FlagSet.or_le_iff.mp (le_refl (state.inFlight ||| _))
      exact FlagSet.or_le_iff.mpr ⟨below.trans older, newer⟩
  | track slots logical onRead loads issued counted _ ih =>
      have new := Entry.kept_ofEvent issued (counted.trans below) logical onRead loads
      refine ih ⟨sound.counters, ?_, sound.fences⟩ below
      exact sound.registers.track slots new fun held kept => kept.join new
  | scalarStore _ ih => exact ih ⟨sound.counters, sound.registers, sound.fences⟩ below

theorem Sound.issue (sound : state.Sound generation) {instr : Instr}
    (issued : state.issue generation instr = .ok after) : after.Sound generation := by
  obtain ⟨effects, read, rfl⟩ := Outcome.map_eq_ok.mp issued
  exact sound.applyAll (Effect.follows_of_ofInstr read) le_rfl

/-- Tracking arithmetic results changes nothing but registers. -/
theorem Sound.issueArithmetic {target : Target} (sound : state.Sound target.generation)
    {instr : Instr} (issued : state.issueArithmetic target instr = .ok after) :
    after.Sound target.generation := by
  obtain ⟨effects, read, done⟩ := Outcome.bind_eq_ok.mp issued
  cases done
  have tracked (effects : List Effect) (state : State) {inFlight : Counters}
      (every : state.Every (Entry.Sound target.generation inFlight))
      (tracks : ∀ effect ∈ effects, ∃ slots event logical onRead loads, effect = Effect.track slots
        (.ofEvent target.generation event logical onRead loads instr.latency) ∧
          event.isArithmetic = true) :
      (state.applyAll target.generation effects).inFlight = state.inFlight ∧
        (state.applyAll target.generation effects).fences = state.fences ∧
        (state.applyAll target.generation effects).Every
          (Entry.Sound target.generation inFlight) := by
    induction effects generalizing state with
    | nil => exact ⟨rfl, rfl, every⟩
    | cons first rest ih =>
        obtain ⟨⟨slots, event, logical, onRead, loads, rfl, arithmetic⟩, others⟩ :=
          List.forall_mem_cons.mp tracks
        have new := @Entry.sound_ofEvent target.generation inFlight event (fun counter counted => by
          rw [Generation.isArithmetic_eq_false_of_counted _ counted] at arithmetic
          cases arithmetic) logical onRead loads _ instr.latency_nonneg
        exact ih _ (every.track slots new fun held kept => kept.join new) others
  obtain ⟨inFlight, fences, every⟩ := tracked effects state
    (fun slot entry held => (sound.registers slot entry held).toSound)
    (Effect.tracks_of_arithmetic read)
  have issues : 0 ≤ instr.issueCycles target := by
    unfold Instr.issueCycles
    split <;> decide
  refine ⟨?_, ?_, ?_⟩
  · rw [inFlight_ageArithmetic, inFlight]
    exact sound.counters
  · rw [inFlight_ageArithmetic, inFlight]
    exact every.ageArithmetic _ _ _ issues
  · intro index
    rw [inFlight_ageArithmetic, inFlight, fence, fences_ageArithmetic, fences]
    exact sound.fences index

/-- Passing a wait leaves no counter in flight that was not. -/
theorem has_of_inFlight_pass {queue : Queue} {position : Nat}
    (held : (state.pass setting queue).inFlight.has position = true) :
    state.inFlight.has position = true := by
  have fold (drained : List Counter) (inFlight : Counters)
      (held : (drained.foldl (fun inFlight counter =>
        inFlight.diff (Counters.single counter)) inFlight).has position = true) :
      inFlight.has position = true := by
    induction drained generalizing inFlight with
    | nil => exact held
    | cons first rest ih =>
        have kept := ih _ held
        rw [FlagSet.has_diff, Bool.and_eq_true] at kept
        exact kept.1
  unfold State.pass at held
  dsimp only at held
  split at held <;> exact fold _ _ held

/-- Moving past a queue keeps the books in order: what is waited for is forgotten everywhere. -/
theorem Sound.pass (sound : state.Sound setting.generation) {queue : Queue}
    (forward : 0 ≤ queue.delay.maxCycles) :
    (state.pass setting queue).Sound setting.generation := by
  have remain (counter : Counter) (busy : state.inFlight.holds counter = true)
      (remains : queue.wait.get counter ≠ some 0) :
      (state.pass setting queue).inFlight.holds counter = true :=
    holds_inFlight_pass busy remains
  refine ⟨?_, ?_, ?_⟩
  · intro position held
    exact sound.counters position (has_of_inFlight_pass held)
  · intro slot entry kept
    generalize (state.pass setting queue).inFlight = inFlight at remain
    unfold State.pass at kept
    extract_lets lowered aged at kept
    have before : aged.Every (Entry.Sound setting.generation state.inFlight) := by
      have every : lowered.Every (Entry.Sound setting.generation state.inFlight) :=
        fun slot entry held => (sound.registers slot entry held).toSound
      change State.Every (if _ then _ else _) _
      split
      · intro slot entry held
        exact (every.ageArithmetic _ _ _ forward slot entry held).toSound
      · exact every
    rw [SlotMap.get?_retain] at kept
    obtain ⟨held, found, cleared⟩ := Option.bind_eq_some_iff.mp kept
    exact Entry.kept_of_clearEntry (before slot held found) remain cleared
  · intro index
    rw [fence_pass]
    exact (sound.fences index).clear remain

section Demanding

variable {queue passed : Queue} {instr : Instr} {footprint : Footprint} {sync : Sync}

/-- Looking at registers adds to the delay that is queued. -/
theorem delay_le_registerHazards (setting : Setting) (state : State) (instr : Instr)
    (footprint : Footprint) (queue : Queue) :
    queue.delay ≤ (state.registerHazards setting instr footprint queue).delay := by
  have start : queue.delay ≤ queue.delay := le_rfl
  refine @registerHazards_keeps setting state (fun later => queue.delay ≤ later.delay) instr
    footprint queue start (fun _ entry _ later below => ?_) fun _ _ _ _ below => below
  unfold readHazard
  split
  · dsimp only
    split
    · exact below.trans (Delay.le_combine_left _ _)
    · exact below
  · exact below

/-- The delay that is required comes from looking at registers. -/
theorem delay_of_require
    (required : state.require setting queue instr footprint sync = (after, passed)) :
    ∃ wait, passed.delay =
      (state.registerHazards setting instr footprint { wait, delay := queue.delay }).delay := by
  have same : passed.delay = (state.needs setting instr footprint sync queue.delay).delay := by
    unfold State.require at required
    dsimp only at required
    split at required <;> cases required <;> rfl
  exact ⟨_, same⟩

/-- A demand adds to the delay that is queued. -/
theorem delay_le_of_require
    (required : state.require setting queue instr footprint sync = (after, passed)) :
    queue.delay ≤ passed.delay := by
  obtain ⟨wait, same⟩ := delay_of_require required
  rw [same]
  exact delay_le_registerHazards setting state instr footprint { wait, delay := _ }

/-- The demand of an instruction keeps the books in order. -/
theorem Sound.require (sound : state.Sound setting.generation)
    (forward : 0 ≤ queue.delay.maxCycles)
    (required : state.require setting queue instr footprint sync = (after, passed)) :
    after.Sound setting.generation := by
  have later := forward.trans (Delay.maxCycles_mono (delay_le_of_require required))
  obtain ⟨_, middle, moved, flatVm, flatLgkm, scalarStore, rfl⟩ := of_require required
  have crossed : middle.Sound setting.generation := by
    rcases moved with rfl | rfl
    · exact sound
    · exact sound.pass later
  exact ⟨crossed.counters, crossed.registers, crossed.fences⟩

end Demanding

/-- Loads of arguments are counted before their registers are tracked. -/
theorem Sound.atEntry (sound : state.Sound generation) {program : Program}
    (quiet : program.pendingLocalAccess = false)
    (seeded : state.atEntry generation program = .ok after) : after.Sound generation := by
  unfold State.atEntry at seeded
  rw [quiet] at seeded
  refine Outcome.foldlM_keeps (Sound generation) seeded sound ?_
  intro definition _ before next kept stepped
  obtain ⟨effect, defined, done⟩ := Outcome.bind_eq_ok.mp stepped
  cases done
  exact kept.applyAll (Effect.follows_of_argument defined) le_rfl

/-- The states that can be reached from the empty one by issuing instructions, by moving past a
queue and the needs of an instruction, by seeding the registers of arguments, and by joins. The
latencies of a queued delay are not below zero, and arithmetic results are tracked from GFX11 on. -/
inductive Reachable (target : Target) : State → Prop where
  | empty : Reachable target ∅
  | issue {state after : State} {instr : Instr} : Reachable target state →
      state.issue target.generation instr = .ok after → Reachable target after
  | issueArithmetic {state after : State} {instr : Instr} : .gfx11 ≤ target.generation →
      Reachable target state → state.issueArithmetic target instr = .ok after →
        Reachable target after
  | demand {setting : Setting} {state after : State} {queue passed : Queue} {instr : Instr}
      {sync : Sync} : setting.target = target → 0 ≤ queue.delay.maxCycles →
      Reachable target state → state.demand setting queue instr sync = .ok (after, passed) →
        Reachable target after
  | atEntry {state after : State} {program : Program} : program.pendingLocalAccess = false →
      Reachable target state → state.atEntry target.generation program = .ok after →
        Reachable target after
  | join {state other : State} (logical : Bool) : Reachable target state →
      Reachable target other → Reachable target (state.join other logical)

/-- The books are in order in every state that can be reached. -/
theorem sound_of_reachable {target : Target} {state : State} (reachable : Reachable target state) :
    state.Sound target.generation := by
  induction reachable with
  | empty => exact sound_empty
  | issue _ issued ih => exact ih.issue issued
  | issueArithmetic _ _ issued ih => exact ih.issueArithmetic issued
  | demand same forward _ demanded ih =>
      subst same
      obtain ⟨footprint, _, required⟩ := Outcome.bind_eq_ok.mp demanded
      exact ih.require forward (Except.ok.inj required)
  | atEntry quiet _ seeded ih => exact ih.atEntry quiet seeded
  | join logical _ _ mine theirs => exact mine.join theirs logical

namespace Reachable

variable {setting : Setting} {state : State}

/-- A demand leads from a state that can be reached to another one. -/
theorem require (reachable : Reachable setting.target state) {after : State} {queue passed : Queue}
    {instr : Instr} {footprint : Footprint} {sync : Sync} (forward : 0 ≤ queue.delay.maxCycles)
    (touches : instr.footprint = .ok footprint)
    (required : state.require setting queue instr footprint sync = (after, passed)) :
    Reachable setting.target after ∧ 0 ≤ passed.delay.maxCycles := by
  have demanded : state.demand setting queue instr sync = .ok (after, passed) :=
    Outcome.bind_eq_ok.mpr ⟨footprint, touches, congrArg Except.ok required⟩
  exact ⟨.demand rfl forward reachable demanded,
    forward.trans (Delay.maxCycles_mono (delay_le_of_require required))⟩

/-- A chain of demands leads from a state that can be reached to another one. -/
theorem requires (reachable : Reachable setting.target state) {final : State} {queue last : Queue}
    (forward : 0 ≤ queue.delay.maxCycles) (requires : Requires setting state queue final last) :
    Reachable setting.target final ∧ 0 ≤ last.delay.maxCycles := by
  induction requires with
  | done state queue => exact ⟨reachable, forward⟩
  | step touches required _ ih =>
      obtain ⟨passed, later⟩ := reachable.require forward touches required
      exact ih passed later

/-- Issuing an instruction leads from a state that can be reached to another one. -/
theorem issueAll (reachable : Reachable setting.target state) {after : State} {instr : Instr}
    (issued : issueAll setting state instr = .ok after) : Reachable setting.target after := by
  unfold Hazard.issueAll at issued
  split at issued
  · rename_i recent
    obtain ⟨middle, arithmetic, issued⟩ := Outcome.bind_eq_ok.mp issued
    exact .issue (.issueArithmetic recent reachable arithmetic) issued
  · exact .issue reachable issued

/-- Delays of the input are only combined with what is queued, so no latency falls below zero. -/
theorem forward_absorb {queue : Queue} (forward : 0 ≤ queue.delay.maxCycles) (instr : Instr) :
    0 ≤ (absorb setting state queue instr).delay.maxCycles := by
  refine forward.trans (Delay.maxCycles_mono ?_)
  unfold absorb
  dsimp only
  split
  · exact Delay.le_combine_left _ _
  · exact le_rfl

/-- A run of instructions leads from a state that can be reached to another one. -/
theorem transferFrom (reachable : Reachable setting.target state) {covered : Nat} {final : State}
    {queue trailing : Queue} {instrs : List Instr} {placed : List Placement}
    (forward : 0 ≤ queue.delay.maxCycles)
    (ran : transferFrom setting covered state queue instrs = .ok (final, trailing, placed)) :
    Reachable setting.target final := by
  induction instrs generalizing covered state queue placed with
  | nil =>
      cases ran
      exact reachable
  | cons instr rest ih =>
      obtain ⟨issued, queued, crosses, proceeds⟩ := crosses_of_transferFrom ran
      obtain ⟨footprint, touches, required, clause, issue⟩ := crosses
      obtain ⟨passed, asked⟩ := reachable.require (forward_absorb forward instr) touches required
      obtain ⟨ready, later⟩ := passed.requires asked clause
      cases proceeds with
      | absorb _ next => exact ih (ready.issueAll issue) later next
      | place _ next => exact ih (ready.issueAll issue) le_rfl next

/-- Running a block over a state that can be reached leaves one that can be reached. -/
theorem transfer (reachable : Reachable setting.target state) {block : Block} {left : State}
    {schedule : Schedule} (transfer : block.transfer setting state = .ok (left, schedule)) :
    Reachable setting.target left := by
  obtain ⟨⟨final, trailing, placed⟩, ran, done⟩ := Outcome.bind_eq_ok.mp transfer
  cases done
  exact reachable.transferFrom le_rfl ran

/-- What the analysis joins and runs can be reached. -/
theorem stable (setting : Setting) : Stable setting (Reachable setting.target) where
  join mine theirs := .join _ mine theirs
  transfer reachable ran := reachable.transfer ran

end Reachable

/-- All states that the analysis finds can be reached. The exception are programs with accesses to
local memory pending on entry: their fences wait for a counter that is not in flight. -/
theorem reachable_of_analyze {program : Program} {setting : Setting} {limit : Nat}
    {entry : Vector State program.size} (quiet : program.pendingLocalAccess = false)
    (analyzed : (program.analyze setting limit).entry = .ok entry) :
    ∀ position (inside : position < program.size), Reachable setting.target entry[position] :=
  Program.every_of_analyze (Reachable.stable setting) .empty (fun _ => .atEntry quiet .empty)
    analyzed

end State

namespace Fence

/-- A fence has events exactly when it has thresholds. -/
theorem Sound.isEmpty_iff {inFlight : Counters} {fence : Fence}
    (sound : fence.Sound generation inFlight) :
    fence.events.isEmpty = true ↔ fence.wait.isEmpty = true := by
  rw [FlagSet.isEmpty_iff, Requirement.isEmpty, List.all_eq_true]
  constructor
  · intro noEvents counter _
    cases set : fence.wait.isSet counter with
    | false => rfl
    | true =>
        obtain ⟨event, held, _⟩ := sound.names counter set
        exact absurd (held.symm.trans (noEvents event.index)) Bool.noConfusion
  · intro noThresholds position
    by_contra held
    obtain ⟨event, _, counter, _, set⟩ := sound.bound position (Bool.of_not_eq_false held)
    have unset := noThresholds counter counter.mem_all
    rw [set] at unset
    cases unset

end Fence

namespace State

/-- In every state that can be reached: the entry of a register is pending on some counter, has a
threshold and an event for each of its wait counters, and is pending on the arithmetic pipelines
exactly when it has a delay; all thresholds of entries and fences can be waited for and are for
counters in flight; a fence has events exactly when it has thresholds, and an event for each of
them; and only wait counters that the generation has are in flight. -/
theorem representation_of_reachable {target : Target} {state : State}
    (reachable : Reachable target state) :
    (∀ slot entry, state.registers.get? slot = some entry →
      entry.counters.isEmpty = false ∧
      (∀ counter, entry.counters.holds counter = true →
        entry.wait.isSet counter = true ∧ entry.events.Names target.generation counter) ∧
      (entry.counters.intersects Counters.alu = true ↔ entry.delay.isEmpty = false) ∧
      entry.wait.Live target.generation state.inFlight) ∧
    (∀ index, (state.fence index).wait.Live target.generation state.inFlight ∧
      ((state.fence index).events.isEmpty = true ↔ (state.fence index).wait.isEmpty = true) ∧
      ∀ counter, (state.fence index).wait.isSet counter = true →
        (state.fence index).events.Names target.generation counter) ∧
    (state.inFlight.holds .vs = true → .gfx10 ≤ target.generation) ∧
    (∀ counter ∈ [Counter.sample, .bvh, .km], state.inFlight.holds counter = true →
      .gfx12 ≤ target.generation) ∧
    state.inFlight.intersects Counters.alu = false := by
  have sound := sound_of_reachable reachable
  have present {counter : Counter} (held : state.inFlight.holds counter = true) :
      0 < target.generation.fieldMax counter := sound.counters.hasCounter held
  refine ⟨?_, ?_, ?_, ?_, ?_⟩
  · intro slot entry held
    have kept := sound.registers slot entry held
    refine ⟨kept.pending, kept.counted, ?_, kept.wait⟩
    rw [Counters.intersects_alu]
    refine ⟨kept.delayed, fun delayed => ?_⟩
    by_contra quiet
    rw [kept.still (eq_false_of_ne_true quiet)] at delayed
    cases delayed
  · intro index
    exact ⟨(sound.fences index).wait, (sound.fences index).isEmpty_iff, (sound.fences index).names⟩
  · intro held
    by_contra early
    exact absurd (present held) (by simp [Generation.fieldMax, early])
  · intro counter listed held
    by_contra early
    simp only [List.mem_cons, List.not_mem_nil, or_false] at listed
    rcases listed with rfl | rfl | rfl <;>
      exact absurd (present held) (by simp [Generation.fieldMax, early])
  · rw [Counters.intersects_alu]
    by_contra held
    obtain ⟨counter, same, _⟩ := sound.counters 7 (Bool.of_not_eq_false held)
    cases counter <;> cases same

namespace LoadAfterMove

/-- A move to a vector register. -/
def move : Instr := { opcode := .vMovB32, definitions := [⟨⟨256⟩, .vector 1⟩] }

/-- A load to another one. -/
def load : Instr := { opcode := .bufferLoadDword, definitions := [⟨⟨257⟩, .vector 1⟩] }

/-- The state behind the move. -/
def moved : State :=
  ((∅ : State).applyAll .gfx11 [.track [⟨256, by decide⟩]
    (.ofEvent .gfx11 .valu false true ∅ 5)]).ageArithmetic true false false 1

/-- The state behind the load. -/
def loaded : State :=
  moved.applyAll .gfx11 [.count .vmem {}, .track [⟨257, by decide⟩]
    (.ofEvent .gfx11 .vmem false true .plain 0)]

/-- The state behind the move can be reached. -/
theorem reachable_moved : Reachable (.ofGeneration .gfx11) moved := by
  have moves : (∅ : State).issueArithmetic (.ofGeneration .gfx11) move = .ok moved := rfl
  exact .issueArithmetic (by decide) .empty moves

/-- The state behind the load can be reached. -/
theorem reachable_loaded : Reachable (.ofGeneration .gfx11) loaded := by
  have loads : moved.issue .gfx11 load = .ok loaded := rfl
  exact .issue reachable_moved loads

/-- The register that was moved to has an entry. -/
theorem isSome_moved : (moved.registers.get? ⟨256, by decide⟩).isSome = true := by
  have empty : (∅ : State).registers.get? ⟨256, by decide⟩ = none := SlotMap.get?_empty _
  simp only [moved, State.applyAll, List.foldl, State.apply, State.ageArithmetic, State.track,
    SlotMap.get?_retain, SlotMap.get?_alter, if_true, empty]
  decide

end LoadAfterMove

open LoadAfterMove in
/-- The move leaves an entry with a delay, and the load behind it a counter in flight. -/
theorem representation_of_load_after_move :
    (Reachable (.ofGeneration .gfx11) moved ∧
      (moved.registers.get? ⟨256, by decide⟩).isSome = true ∧
      ∀ slot entry, moved.registers.get? slot = some entry →
        entry.counters.isEmpty = false ∧
          (entry.counters.intersects Counters.alu = true ↔ entry.delay.isEmpty = false)) ∧
    (Reachable (.ofGeneration .gfx11) loaded ∧ loaded.inFlight.holds .vm = true ∧
      loaded.inFlight.intersects Counters.alu = false) := by
  refine ⟨⟨reachable_moved, isSome_moved, ?_⟩, reachable_loaded, by decide, ?_⟩
  · intro slot entry held
    obtain ⟨pending, _, arithmetic, _⟩ :=
      (representation_of_reachable reachable_moved).1 slot entry held
    exact ⟨pending, arithmetic⟩
  · exact (representation_of_reachable reachable_loaded).2.2.2.2

end State

end WaveHazard.Hazard
