import WaveHazard.Proofs.EffectLists
import WaveHazard.Proofs.Transit

/-! # The numbers of a state fit into bytes

Thresholds start at 0 and stop at the largest one that can be waited for, and the numbers of a delay
stop at the ends of a signed byte. So the numbers of every state the analysis can reach fit into
bytes: those at the entry of a program do, and joins and the transfer function keep it that way.
-/

namespace WaveHazard

open Machine Wait

namespace Wait

namespace Threshold

theorem unset_pos : 0 < unset := by decide

end Threshold

namespace Requirement

variable {wait other : Requirement}

theorem fits_empty : (∅ : Requirement).Fits := by
  intro counter n bound
  rw [get_empty] at bound
  cases bound

/-- A requirement fits when every threshold is one of a requirement that fits, or is small. -/
theorem fits_ofFn {threshold : Counter → Threshold}
    (fits : ∀ counter n, threshold counter = some n → n < Threshold.unset) :
    (ofFn threshold).Fits := by
  intro counter n bound
  rw [get_ofFn] at bound
  exact fits counter n bound

/-- Of two thresholds that fit the stricter one fits. -/
theorem Fits.combine (left : wait.Fits) (right : other.Fits) : (wait.combine other).Fits := by
  refine fits_ofFn fun counter n bound => ?_
  cases mine : wait.get counter with
  | none =>
      rw [mine] at bound
      exact right counter n bound
  | some m =>
      cases theirs : other.get counter with
      | none =>
          rw [mine, theirs] at bound
          exact left counter n (mine.trans bound)
      | some k =>
          rw [mine, theirs] at bound
          cases bound
          exact Nat.lt_of_le_of_lt (Nat.min_le_left m k) (left counter m mine)

/-- The threshold of a counter that drains is 0, and fits. -/
theorem Fits.drain (fits : wait.Fits) (chosen : Counter → Bool) : (wait.drain chosen).Fits := by
  refine fits_ofFn fun counter n bound => ?_
  split at bound
  · cases bound
    exact Threshold.unset_pos
  · exact fits counter n bound

/-- Thresholds that are left out do no harm. -/
theorem Fits.only (fits : wait.Fits) (chosen : Counter → Bool) : (wait.only chosen).Fits := by
  refine fits_ofFn fun counter n bound => ?_
  split at bound
  · exact fits counter n bound
  · cases bound

/-- A threshold that is forgotten does no harm. -/
theorem Fits.clear (fits : wait.Fits) (counter : Counter) : (wait.set counter none).Fits := by
  refine fits_ofFn fun other n bound => ?_
  split at bound
  · cases bound
  · exact fits other n bound

end Requirement

theorem isByte_clampByte (value : Int) : IsByte (clampByte value) := by
  unfold IsByte clampByte
  omega

theorem isByte_max {left right : Int} (first : IsByte left) (second : IsByte right) :
    IsByte (max left right) := by
  unfold IsByte at *
  omega

theorem isByte_min {left right : Int} (first : IsByte left) (second : IsByte right) :
    IsByte (min left right) := by
  unfold IsByte at *
  omega

/-- Whichever of two bytes is chosen is a byte. -/
theorem isByte_ite {condition : Prop} [Decidable condition] {left right : Int}
    (first : IsByte left) (second : IsByte right) : IsByte (if condition then left else right) := by
  split
  · exact first
  · exact second

namespace Delay

variable {delay other : Delay}

theorem isByte_valuNone : IsByte valuNone := by
  unfold IsByte valuNone
  omega

theorem isByte_transNone : IsByte transNone := by
  unfold IsByte transNone
  omega

theorem isByte_zero : IsByte 0 := by
  unfold IsByte
  omega

theorem fits_empty : (∅ : Delay).Fits :=
  ⟨isByte_valuNone, isByte_zero, isByte_transNone, isByte_zero, isByte_zero⟩

/-- The closer of two distances and the longer of two latencies are bytes. -/
theorem Fits.combine (left : delay.Fits) (right : other.Fits) : (delay.combine other).Fits where
  valuInstrs := isByte_min left.valuInstrs right.valuInstrs
  valuCycles := isByte_max left.valuCycles right.valuCycles
  transInstrs := isByte_min left.transInstrs right.transInstrs
  transCycles := isByte_max left.transCycles right.transCycles
  saluCycles := isByte_max left.saluCycles right.saluCycles

/-- Numbers that have run out are replaced by bytes. -/
theorem Fits.settle (fits : delay.Fits) : delay.settle.Fits where
  valuInstrs := isByte_ite isByte_valuNone fits.valuInstrs
  valuCycles := isByte_ite isByte_zero fits.valuCycles
  transInstrs := isByte_ite isByte_transNone fits.transInstrs
  transCycles := isByte_ite isByte_zero fits.transCycles
  saluCycles := isByte_max fits.saluCycles isByte_zero

/-- Numbers saturate when a delay ages. -/
theorem Fits.age (fits : delay.Fits) (isValu isTrans : Bool) (cycles : Int) :
    (delay.age isValu isTrans cycles).Fits :=
  Fits.settle
    { valuInstrs := isByte_ite (isByte_clampByte _) fits.valuInstrs
      valuCycles := isByte_clampByte _
      transInstrs := isByte_ite (isByte_clampByte _) fits.transInstrs
      transCycles := isByte_clampByte _
      saluCycles := isByte_clampByte _ }

end Delay

end Wait

namespace Machine

/-- No generation has a threshold that does not fit into a byte. -/
theorem Generation.maxThreshold_lt (generation : Generation) (counter : Counter) :
    generation.maxThreshold counter < Threshold.unset := by
  cases generation <;> cases counter <;> decide

/-- The latency of every instruction is a byte. -/
theorem Instr.isByte_latency (instr : Instr) : IsByte instr.latency := by
  unfold IsByte latency
  split <;> decide

/-- No instruction has a negative latency. -/
theorem Instr.latency_nonneg (instr : Instr) : 0 ≤ instr.latency := by
  unfold latency
  split <;> decide

end Machine

namespace Hazard

open Index

variable {generation : Generation} {setting : Setting}

/-- Aging a requirement stops at the largest threshold. -/
theorem fits_ageRequirement {wait : Requirement} (fits : wait.Fits) (pending issued : Events)
    (chosen : Counter → Bool) : (ageRequirement generation wait pending issued chosen).Fits := by
  refine Requirement.fits_ofFn fun counter n bound => ?_
  split at bound
  · have below := generation.maxThreshold_lt counter
    unfold Threshold.increment at bound
    split at bound
    · cases bound
      exact below
    · cases bound
      exact Nat.lt_of_le_of_lt (Nat.min_le_right _ _) below
  · exact fits counter n bound

namespace Entry

variable {entry other : Entry}

theorem Fits.join (left : entry.Fits) (right : other.Fits) : (entry.join other).Fits :=
  ⟨left.wait.combine right.wait, left.delay.combine right.delay⟩

/-- Thresholds grow only up to the largest one of their counter. -/
theorem Fits.age (fits : entry.Fits) (event : Event) (counters : Counters) :
    (entry.age generation event counters).Fits := by
  unfold Entry.age
  split
  · exact fits
  · exact ⟨fits_ageRequirement fits.wait _ _ _, fits.delay⟩

/-- An entry is kept as it is while something is left of it. -/
theorem unlessDone_eq_some :
    entry.unlessDone = some other ↔ entry.isDone = false ∧ entry = other := by
  unfold unlessDone
  cases entry.isDone <;> simp

/-- The entry of a new producer fits when its latency does. -/
theorem fits_ofEvent (event : Event) (logical onRead : Bool) (loads : LoadKind) {cycles : Int}
    (isByte : IsByte cycles) : (ofEvent generation event logical onRead loads cycles).Fits := by
  refine ⟨Requirement.fits_empty.drain _, ?_⟩
  have empty := Delay.fits_empty
  unfold ofEvent
  dsimp only
  split
  · exact { empty with valuInstrs := Delay.isByte_zero, valuCycles := isByte }
  · exact { empty with transInstrs := Delay.isByte_zero, transCycles := isByte }
  · exact { empty with saluCycles := isByte }
  · exact empty

/-- What is kept when a producer is forgotten, and when a delay changes into one that fits if the
old one did. -/
structure KeptByForgetting (generation : Generation) (property : Entry → Prop) : Prop where
  delay : ∀ {entry : Entry} {delay : Delay}, (entry.delay.Fits → delay.Fits) → property entry →
    property { entry with delay }
  dropArithmetic : ∀ {entry : Entry}, property entry → property entry.dropArithmetic
  dropCounter : ∀ {entry : Entry} (counter : Counter), property entry →
    property (entry.dropCounter counter (generation.counted counter))

/-- Forgetting a producer leaves bytes. -/
theorem fits_keptByForgetting : KeptByForgetting generation Fits where
  delay keeps fits := ⟨fits.wait, keeps fits.delay⟩
  dropArithmetic fits := ⟨fits.wait, Delay.fits_empty⟩
  dropCounter counter fits := ⟨fits.wait.clear counter, fits.delay⟩

/-- What a wait and a delay leave of an entry. -/
theorem KeptByForgetting.of_clearEntry {property : Entry → Prop}
    (kept : KeptByForgetting setting.generation property) (before : property entry) {queue : Queue}
    (cleared : State.clearEntry setting queue entry = some other) : property other := by
  have dropped (counters : List Counter) (held : Entry) (before : property held) :
      property (counters.foldl (fun held counter =>
        if (queue.wait.get counter).covers (held.wait.get counter) then
          held.dropCounter counter (setting.generation.counted counter)
        else held) held) := by
    induction counters generalizing held with
    | nil => exact before
    | cons counter rest ih =>
        apply ih
        dsimp only
        split
        · exact kept.dropCounter _ before
        · exact before
  unfold State.clearEntry at cleared
  extract_lets remaining source delay settled at cleared
  have settles : property settled := by
    refine kept.delay (fun fits => Delay.Fits.settle ?_) (dropped Counter.all entry before)
    exact { fits with
      valuInstrs := isByte_ite Delay.isByte_valuNone fits.valuInstrs
      transInstrs := isByte_ite Delay.isByte_transNone fits.transInstrs }
  obtain ⟨_, rfl⟩ := unlessDone_eq_some.mp cleared
  split
  · exact kept.dropArithmetic settles
  · exact settles

end Entry

namespace Fence

variable {fence : Fence}

/-- The thresholds of a fence stay bytes when accesses are issued. -/
theorem fits_after (fits : fence.wait.Fits) (index : Nat) (counters : Counters) (events : Events)
    (sync : Sync) : (fence.after generation index counters events sync).wait.Fits := by
  unfold after
  split
  · exact fits.drain _
  · unfold age
    split
    · exact fits
    · exact fits_ageRequirement fits _ _ _

end Fence

namespace State

variable {state other : State}

/-- A property of the entries of all registers. -/
def Every (state : State) (property : Entry → Prop) : Prop :=
  ∀ slot entry, state.registers.get? slot = some entry → property entry

/-- No register of the empty state has an entry. -/
theorem every_empty (property : Entry → Prop) : (∅ : State).Every property := by
  intro slot entry held
  have empty : (∅ : State).registers.get? slot = none := SlotMap.get?_empty slot
  rw [empty] at held
  cases held

/-- The empty state has no numbers out of range. -/
theorem fits_empty : (∅ : State).Fits where
  fences index := by
    have empty : (∅ : State).fence index = {} := Vector.getElem_replicate ..
    rw [empty]
    exact Requirement.fits_empty
  registers := every_empty _

/-- A property of all entries is kept when producers are added, if joins keep it. -/
theorem Every.track {property : Entry → Prop} (every : state.Every property) (slots : List Slot)
    {entry : Entry} (new : property entry)
    (joins : ∀ held, property held → property (held.join entry)) :
    (state.track slots entry).Every property := by
  unfold Every State.track at *
  dsimp only
  generalize state.registers = registers at every
  induction slots generalizing registers with
  | nil => exact every
  | cons first rest ih =>
      apply ih
      intro slot held found
      rw [SlotMap.get?_alter] at found
      split at found
      · split at found
        · cases found
          exact new
        · rename_i before there
          cases found
          exact joins before (every first before there)
      · exact every slot held found

/-- A property of all entries is kept by joining states, if joining entries keeps it. -/
theorem Every.join {property : Entry → Prop} (mine : state.Every property)
    (theirs : other.Every property)
    (joins : ∀ left right, property left → property right → property (left.join right))
    (logical : Bool) : (state.join other logical).Every property := by
  intro slot entry held
  rw [get?_registers_join] at held
  cases taken : other.registers.get? slot with
  | none =>
      rw [taken] at held
      exact mine slot entry held
  | some right =>
      rw [taken] at held
      unfold joinSlot at held
      dsimp only at held
      split at held
      · cases kept : state.registers.get? slot with
        | none =>
            rw [kept] at held
            cases held
            exact theirs slot _ taken
        | some left =>
            rw [kept] at held
            cases held
            exact joins left right (mine slot left kept) (theirs slot right taken)
      · exact mine slot entry held

/-- What aging arithmetic producers leaves in a slot comes from what was there. -/
theorem exists_of_ageArithmetic {property : Entry → Prop}
    (kept : Entry.KeptByForgetting generation property) {isValu isTrans forget : Bool}
    {cycles : Int} {slot : Slot} {entry : Entry}
    (found : (state.ageArithmetic isValu isTrans forget cycles).registers.get? slot = some entry) :
    ∃ held, state.registers.get? slot = some held ∧ (property held → property entry) := by
  unfold State.ageArithmetic at found
  dsimp only at found
  rw [SlotMap.get?_retain] at found
  obtain ⟨held, there, left⟩ := Option.bind_eq_some_iff.mp found
  refine ⟨held, there, fun before => ?_⟩
  have aged : property { held with delay := held.delay.age isValu isTrans cycles } :=
    kept.delay (fun fits => fits.age _ _ _) before
  obtain ⟨_, rfl⟩ := Entry.unlessDone_eq_some.mp left
  split
  · exact kept.dropArithmetic before
  · split
    · exact kept.dropArithmetic aged
    · exact aged

/-- A property of all entries that forgetting keeps is kept while arithmetic passes. -/
theorem Every.ageArithmetic_of_kept {property : Entry → Prop} (every : state.Every property)
    (kept : Entry.KeptByForgetting generation property) (isValu isTrans forget : Bool)
    (cycles : Int) : (state.ageArithmetic isValu isTrans forget cycles).Every property := by
  intro slot entry found
  obtain ⟨held, there, keeps⟩ := exists_of_ageArithmetic kept found
  exact keeps (every slot held there)

/-- What passing a wait leaves in a slot comes from what was there. -/
theorem exists_of_pass {property : Entry → Prop}
    (kept : Entry.KeptByForgetting setting.generation property) {queue : Queue} {slot : Slot}
    {entry : Entry} (found : (state.pass setting queue).registers.get? slot = some entry) :
    ∃ held, state.registers.get? slot = some held ∧ (property held → property entry) := by
  unfold State.pass at found
  extract_lets lowered aged at found
  rw [SlotMap.get?_retain] at found
  obtain ⟨middle, there, left⟩ := Option.bind_eq_some_iff.mp found
  have before : ∃ held, state.registers.get? slot = some held ∧
      (property held → property middle) := by
    change (if _ then _ else _ : State).registers.get? slot = some middle at there
    split at there
    · exact exists_of_ageArithmetic kept there
    · exact ⟨middle, there, id⟩
  obtain ⟨held, first, keeps⟩ := before
  exact ⟨held, first, fun known => kept.of_clearEntry (keeps known) left⟩

/-- A property of all entries that forgetting keeps is kept behind a queue of waits. -/
theorem Every.pass_of_kept {property : Entry → Prop} (every : state.Every property)
    (kept : Entry.KeptByForgetting setting.generation property) (queue : Queue) :
    (state.pass setting queue).Every property := by
  intro slot entry found
  obtain ⟨held, there, keeps⟩ := exists_of_pass kept found
  exact keeps (every slot held there)

/-- What a join takes over fits. -/
theorem Fits.join (left : state.Fits) (right : other.Fits) (logical : Bool) :
    (state.join other logical).Fits where
  fences index := by
    rw [fence_join]
    exact (left.fences index).combine (right.fences index)
  registers := Every.join left.registers right.registers (fun _ _ => Entry.Fits.join) logical

/-- Only fences and registers hold numbers. -/
theorem Fits.of_eq (fits : state.Fits) (fences : other.fences = state.fences)
    (registers : other.registers = state.registers) : other.Fits := by
  refine ⟨?_, ?_⟩
  · intro index
    unfold fence
    rw [fences]
    exact fits.fences index
  · rw [registers]
    exact fits.registers

/-- A producer that fits may be added. -/
theorem Fits.track (fits : state.Fits) (slots : List Slot) {entry : Entry} (new : entry.Fits) :
    (state.track slots entry).Fits :=
  ⟨fits.fences, Every.track fits.registers slots new fun _ held => held.join new⟩

/-- Delays stay in range while arithmetic passes. -/
theorem Fits.ageArithmetic (fits : state.Fits) (isValu isTrans forget : Bool) (cycles : Int) :
    (state.ageArithmetic isValu isTrans forget cycles).Fits where
  fences index := by
    unfold fence
    rw [fences_ageArithmetic]
    exact fits.fences index
  -- No counter is forgotten here, so the generation does not matter.
  registers := Every.ageArithmetic_of_kept fits.registers (@Entry.fits_keptByForgetting .gfx6)
    isValu isTrans forget cycles

/-- Passing a wait forgets, and lets delays run out. -/
theorem Fits.pass (fits : state.Fits) (queue : Queue) : (state.pass setting queue).Fits where
  fences index := by
    rw [fence_pass]
    exact (fits.fences index).only _
  registers := Every.pass_of_kept fits.registers Entry.fits_keptByForgetting queue

/-- Requiring waits moves the state past them, or leaves it where it is. -/
theorem Fits.require (fits : state.Fits) {after : State} {queue passed : Queue} {instr : Instr}
    {footprint : Footprint} {sync : Sync}
    (required : state.require setting queue instr footprint sync = (after, passed)) :
    after.Fits := by
  obtain ⟨_, middle, moved, flatVm, flatLgkm, scalarStore, rfl⟩ := of_require required
  have crossed : middle.Fits := by
    rcases moved with rfl | rfl
    · exact fits
    · exact fits.pass passed
  exact crossed.of_eq rfl rfl

end State

/-- The entry that an effect tracks fits. -/
def Effect.Fits (effect : Effect) : Prop :=
  ∀ slots entry, effect = .track slots entry → entry.Fits

namespace State

variable {state : State}

/-- An effect keeps what joins with new producers and changes of thresholds keep. -/
theorem Every.apply {property : Entry → Prop} {effect : Effect} (every : state.Every property)
    (ages : ∀ event sync, effect = .count event sync → ∀ entry counters,
      property entry → property (entry.age generation event counters))
    (drains : ∀ entry : Entry, property entry → ∀ chosen : Counter → Bool,
      (∀ counter, chosen counter = true → entry.counters.holds counter = true) →
        property { entry with wait := entry.wait.drain chosen })
    (joins : ∀ slots new, effect = .track slots new →
      property new ∧ ∀ held, property held → property (held.join new)) :
    (state.apply generation effect).Every property := by
  cases effect with
  | count event sync =>
      intro slot entry found
      change (state.count generation event sync).registers.get? slot = some entry at found
      unfold State.count at found
      dsimp only at found
      split at found
      · exact every slot entry found
      · rw [SlotMap.get?_map] at found
        obtain ⟨before, there, rfl⟩ := Option.map_eq_some_iff.mp found
        exact ages event sync rfl before _ (every slot before there)
  | flatLoad sync =>
      intro slot entry found
      change (state.flatLoad generation sync).registers.get? slot = some entry at found
      unfold State.flatLoad at found
      dsimp only at found
      rw [SlotMap.get?_map] at found
      obtain ⟨before, there, rfl⟩ := Option.map_eq_some_iff.mp found
      exact drains before (every slot before there) _ fun counter chosen =>
        (Bool.and_eq_true_iff.mp chosen).2
  | track slots new =>
      obtain ⟨fresh, held⟩ := joins slots new rfl
      exact every.track slots fresh held
  | scalarStore => exact every

/-- A list of effects keeps what all of its effects keep. -/
theorem Every.applyAll {property : Entry → Prop} {effects : List Effect}
    (every : state.Every property)
    (ages : ∀ event sync, .count event sync ∈ effects → ∀ entry counters,
      property entry → property (entry.age generation event counters))
    (drains : ∀ entry : Entry, property entry → ∀ chosen : Counter → Bool,
      (∀ counter, chosen counter = true → entry.counters.holds counter = true) →
        property { entry with wait := entry.wait.drain chosen })
    (joins : ∀ slots new, .track slots new ∈ effects →
      property new ∧ ∀ held, property held → property (held.join new)) :
    (state.applyAll generation effects).Every property := by
  induction effects generalizing state with
  | nil => exact every
  | cons first rest ih =>
      refine ih (every.apply ?_ drains ?_)
        (fun event sync later => ages event sync (List.mem_cons_of_mem _ later))
        fun slots new later => joins slots new (List.mem_cons_of_mem _ later)
      · rintro event sync rfl
        exact ages event sync List.mem_cons_self
      · rintro slots new rfl
        exact joins slots new List.mem_cons_self

/-- Fences and thresholds age, and registers are tracked. -/
theorem Fits.apply (fits : state.Fits) {effect : Effect} (new : effect.Fits) :
    (state.apply generation effect).Fits := by
  constructor
  · intro index
    cases counts : effect.operation? with
    | none =>
        unfold fence
        rw [fences_apply_of_none counts]
        exact fits.fences index
    | some operation =>
        rw [fence_apply counts]
        exact Fence.fits_after (fits.fences index) _ _ _ _
  · refine Every.apply fits.registers (fun event _ _ entry counters fits => fits.age event counters)
      (fun entry fits chosen _ => ⟨fits.wait.drain chosen, fits.delay⟩) fun slots entry tracks => ?_
    have tracked := new slots entry tracks
    exact ⟨tracked, fun held fits => fits.join tracked⟩

/-- A state stays in range when all effects of an instruction fit. -/
theorem Fits.applyAll (fits : state.Fits) {effects : List Effect}
    (new : ∀ effect ∈ effects, effect.Fits) : (state.applyAll generation effects).Fits := by
  induction effects generalizing state with
  | nil => exact fits
  | cons first rest ih =>
      exact ih (fits.apply (new first List.mem_cons_self))
        fun effect member => new effect (List.mem_cons_of_mem _ member)

end State

namespace Effect

variable {instr : Instr} {effects : List Effect}

/-- Effects that follow track entries without a latency. -/
theorem fits_of_follows {known : Counters} (follows : Follows generation known effects) :
    ∀ effect ∈ effects, effect.Fits := by
  induction follows with
  | nil known => exact fun _ member => nomatch member
  | count sync _ _ ih =>
      refine List.forall_mem_cons.mpr ⟨fun _ _ same => ?_, ih⟩
      cases same
  | flatLoad sync _ ih =>
      refine List.forall_mem_cons.mpr ⟨fun _ _ same => ?_, ih⟩
      cases same
  | track slots logical onRead loads _ _ _ ih =>
      refine List.forall_mem_cons.mpr ⟨fun _ _ same => ?_, ih⟩
      cases same
      exact Entry.fits_ofEvent _ _ _ _ Delay.isByte_zero
  | scalarStore _ ih =>
      refine List.forall_mem_cons.mpr ⟨fun _ _ same => ?_, ih⟩
      cases same

/-- All arithmetic effects of an instruction fit. -/
theorem fits_of_arithmetic (read : arithmetic generation instr instr.latency = .ok effects) :
    ∀ effect ∈ effects, effect.Fits := by
  intro effect member slots entry same
  obtain ⟨_, event, logical, onRead, loads, tracked, _⟩ := tracks_of_arithmetic read effect member
  cases tracked.symm.trans same
  exact Entry.fits_ofEvent _ _ _ _ instr.isByte_latency

end Effect

namespace State

variable {state : State}

theorem Fits.issue (fits : state.Fits) {after : State} {instr : Instr}
    (issued : state.issue generation instr = .ok after) : after.Fits := by
  obtain ⟨effects, read, rfl⟩ := Outcome.map_eq_ok.mp issued
  exact fits.applyAll (Effect.fits_of_follows (@Effect.follows_of_ofInstr _ ∅ _ _ read))

/-- A state stays in range when an instruction is issued with its arithmetic. -/
theorem Fits.issueAll (fits : state.Fits) {after : State} {instr : Instr}
    (issued : issueAll setting state instr = .ok after) : after.Fits := by
  unfold Hazard.issueAll at issued
  split at issued
  · obtain ⟨middle, arithmetic, issued⟩ := Outcome.bind_eq_ok.mp issued
    obtain ⟨effects, read, done⟩ := Outcome.bind_eq_ok.mp arithmetic
    cases done
    exact ((fits.applyAll (Effect.fits_of_arithmetic read)).ageArithmetic _ _ _ _).issue issued
  · exact fits.issue issued

/-- A state stays in range along a chain of demands. -/
theorem Fits.requires (fits : state.Fits) {final : State} {queue last : Queue}
    (requires : Requires setting state queue final last) : final.Fits := by
  induction requires with
  | done state queue => exact fits
  | step _ required _ ih => exact ih (fits.require required)

/-- Running instructions keeps all numbers in range. -/
theorem Fits.transferFrom (fits : state.Fits) {covered : Nat} {final : State}
    {queue trailing : Queue} {instrs : List Instr} {placed : List Placement}
    (ran : transferFrom setting covered state queue instrs = .ok (final, trailing, placed)) :
    final.Fits := by
  induction instrs generalizing covered state queue placed with
  | nil =>
      cases ran
      exact fits
  | cons instr rest ih =>
      obtain ⟨issued, queued, crosses, proceeds⟩ := crosses_of_transferFrom ran
      obtain ⟨footprint, _, required, clause, issue⟩ := crosses
      have ready : issued.Fits := ((fits.require required).requires clause).issueAll issue
      cases proceeds with
      | absorb _ next => exact ih ready next
      | place _ next => exact ih ready next

/-- Running a block keeps all numbers in range. -/
theorem Fits.transfer (fits : state.Fits) {block : Block} {left : State} {schedule : Schedule}
    (transfer : block.transfer setting state = .ok (left, schedule)) : left.Fits := by
  obtain ⟨⟨final, trailing, placed⟩, ran, done⟩ := Outcome.bind_eq_ok.mp transfer
  cases done
  exact fits.transferFrom ran

/-- All numbers at the entry of a program are in range. -/
theorem fits_atEntry {program : Program} {seeded : State}
    (atEntry : State.atEntry generation ∅ program = .ok seeded) : seeded.Fits := by
  refine Outcome.foldlM_keeps Fits atEntry ?_ fun definition _ before next fits stepped => ?_
  on_goal 2 =>
    obtain ⟨effect, defined, done⟩ := Outcome.bind_eq_ok.mp stepped
    cases done
    exact fits.applyAll (Effect.fits_of_follows (@Effect.follows_of_argument _ ∅ _ _ defined))
  split
  · refine ⟨fun index => ?_, fits_empty.registers⟩
    have counted : (countFences generation ∅ (generation.countersOf .lds) (.single .lds)
        (.ofStorage .shared)).fence index =
        ((∅ : State).fence index).after generation index (generation.countersOf .lds) (.single .lds)
          (.ofStorage .shared) := Vector.getElem_mapIdx ..
    rw [counted]
    exact Fence.fits_after (fits_empty.fences index) _ _ _ _
  · exact fits_empty

end State

end Hazard

end WaveHazard
