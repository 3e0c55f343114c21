import WaveHazard.Proofs.Awaiting

/-! # What an instruction needs

The needs of an instruction are collected step by step, and no step takes anything back: what is
collected in the end asks for at least what each step asked for. Bounds on counters with nothing in
flight are dropped last, which is why the lemmas speak of counters in flight.
-/

namespace WaveHazard.Hazard

open Machine Wait

/-- A requirement that is at least as strict on one counter. -/
def EntailsAt (counter : Counter) (strict loose : Requirement) : Prop :=
  ∀ bound, loose.get counter = some bound →
    ∃ tighter, strict.get counter = some tighter ∧ tighter ≤ bound

/-- A stricter requirement is as strict on each counter. -/
theorem Entails.at {strict loose : Requirement} (entails : Entails strict loose)
    (counter : Counter) : EntailsAt counter strict loose :=
  entails counter

/-- To be as strict on a counter is transitive. -/
theorem EntailsAt.trans {counter : Counter} {first second third : Requirement}
    (left : EntailsAt counter first second) (right : EntailsAt counter second third) :
    EntailsAt counter first third := by
  intro bound asked
  obtain ⟨middle, given, below⟩ := right bound asked
  obtain ⟨tighter, found, least⟩ := left middle given
  exact ⟨tighter, found, Nat.le_trans least below⟩

/-- A step that takes nothing back can be repeated, and every repetition adds what it adds. -/
theorem entailsAt_foldl {α β : Type} (waitOf : β → Requirement) {add : β → α → β}
    {counter : Counter}
    (grows : ∀ held item, EntailsAt counter (waitOf (add held item)) (waitOf held))
    (items : List α) (held : β) :
    EntailsAt counter (waitOf (items.foldl add held)) (waitOf held) ∧
      ∀ item ∈ items, ∀ wait, (∀ held, EntailsAt counter (waitOf (add held item)) wait) →
        EntailsAt counter (waitOf (items.foldl add held)) wait := by
  induction items generalizing held with
  | nil => exact ⟨(Entails.refl _).at counter, fun _ member => absurd member List.not_mem_nil⟩
  | cons first rest ih =>
      obtain ⟨kept, added⟩ := ih (add held first)
      refine ⟨kept.trans (grows held first), ?_⟩
      intro item member wait adds
      rcases List.mem_cons.mp member with rfl | later
      · exact kept.trans (adds held)
      · exact added item later wait adds

namespace State

variable (setting : Setting) (state : State)

/-- Dropping the bounds on idle counters keeps those on the others. -/
theorem entailsAt_dropIdle (wait : Requirement) {counter : Counter}
    (busy : state.inFlight.holds counter = true) :
    EntailsAt counter (state.dropIdle wait) wait := by
  intro bound asked
  refine ⟨bound, ?_, Nat.le_refl bound⟩
  unfold dropIdle
  rw [Requirement.get_only, if_pos busy, asked]

section Registers

variable {footprint : Footprint} {slot : Slot} {entry : Entry}

/-- What looking at a slot adds to the queue. -/
def slotHazard (hazard : Queue → Entry → Queue) (queue : Queue) (slot : Slot) : Queue :=
  match state.registers.get? slot with
  | none => queue
  | some entry => hazard queue entry

/-- A slot with an entry adds what the entry adds. -/
theorem slotHazard_of_found {hazard : Queue → Entry → Queue}
    (found : state.registers.get? slot = some entry) (queue : Queue) :
    state.slotHazard hazard queue slot = hazard queue entry := by
  unfold slotHazard
  rw [found]

/-- Reading a slot adds to what is queued. -/
theorem entailsAt_readHazard (instr : Instr) (counter : Counter) (queue : Queue) (slot : Slot) :
    EntailsAt counter (state.slotHazard (readHazard instr) queue slot).wait queue.wait := by
  unfold slotHazard
  split
  · exact (Entails.refl _).at counter
  · unfold readHazard
    split
    · exact (entails_combine_left _ _).at counter
    · exact (Entails.refl _).at counter

/-- Writing a slot adds to what is queued. -/
theorem entailsAt_writeHazard (instr : Instr) (counter : Counter) (queue : Queue) (slot : Slot) :
    EntailsAt counter (state.slotHazard (writeHazard setting instr) queue slot).wait
      queue.wait := by
  unfold slotHazard
  split
  · exact (Entails.refl _).at counter
  · exact (entails_combine_left _ _).at counter

/-- The registers that are read are looked at first, then those that are written. -/
theorem registerHazards_eq (instr : Instr) (footprint : Footprint) (queue : Queue) :
    state.registerHazards setting instr footprint queue =
      footprint.writes.foldl (state.slotHazard (writeHazard setting instr))
        (footprint.reads.foldl (state.slotHazard (readHazard instr)) queue) :=
  rfl

/-- What looking at one register keeps, looking at all of them keeps. -/
theorem registerHazards_keeps {property : Queue → Prop} {instr : Instr} {footprint : Footprint}
    {queue : Queue} (before : property queue)
    (reads : ∀ slot entry, state.registers.get? slot = some entry →
      ∀ queue, property queue → property (readHazard instr queue entry))
    (writes : ∀ slot entry, state.registers.get? slot = some entry →
      ∀ queue, property queue → property (writeHazard setting instr queue entry)) :
    property (state.registerHazards setting instr footprint queue) := by
  have fold (hazard : Queue → Entry → Queue)
      (adds : ∀ slot entry, state.registers.get? slot = some entry →
        ∀ queue, property queue → property (hazard queue entry))
      (slots : List Slot) (queue : Queue) (before : property queue) :
      property (slots.foldl (state.slotHazard hazard) queue) := by
    induction slots generalizing queue with
    | nil => exact before
    | cons slot rest ih =>
        refine ih _ ?_
        unfold slotHazard
        split
        · exact before
        · exact adds slot _ ‹_› queue before
  rw [registerHazards_eq]
  exact fold _ writes footprint.writes _ (fold _ reads footprint.reads queue before)

/-- Looking at registers adds to what is queued. -/
theorem entails_registerHazards (instr : Instr) (footprint : Footprint) (queue : Queue) :
    Entails (state.registerHazards setting instr footprint queue).wait queue.wait := by
  intro counter
  rw [registerHazards_eq]
  have writing := entailsAt_foldl Queue.wait (state.entailsAt_writeHazard setting instr counter)
    footprint.writes (footprint.reads.foldl (state.slotHazard (readHazard instr)) queue)
  exact writing.1.trans
    (entailsAt_foldl Queue.wait (state.entailsAt_readHazard instr counter) footprint.reads queue).1

/-- A read waits for the producers of the register. -/
theorem entailsAt_of_read (read : slot ∈ footprint.reads)
    (found : state.registers.get? slot = some entry) (waits : entry.onRead = true)
    (counter : Counter) (instr : Instr) (queue : Queue) :
    EntailsAt counter (state.registerHazards setting instr footprint queue).wait entry.wait := by
  rw [registerHazards_eq]
  have writing := entailsAt_foldl Queue.wait (state.entailsAt_writeHazard setting instr counter)
    footprint.writes (footprint.reads.foldl (state.slotHazard (readHazard instr)) queue)
  have reading := entailsAt_foldl Queue.wait (state.entailsAt_readHazard instr counter)
    footprint.reads queue
  refine writing.1.trans (reading.2 slot read entry.wait fun queue => ?_)
  rw [slotHazard_of_found state found]
  unfold readHazard
  rw [if_pos waits]
  exact (entails_combine_right _ _).at counter

/-- A write waits for the producers of the register that it does not stay in order behind. -/
theorem entailsAt_of_write (written : slot ∈ footprint.writes)
    (found : state.registers.get? slot = some entry) {counter : Counter} {instr : Instr}
    (apart : inOrderBehind setting.generation instr entry counter = false) (queue : Queue) :
    EntailsAt counter (state.registerHazards setting instr footprint queue).wait entry.wait := by
  rw [registerHazards_eq]
  have writing := entailsAt_foldl Queue.wait (state.entailsAt_writeHazard setting instr counter)
    footprint.writes (footprint.reads.foldl (state.slotHazard (readHazard instr)) queue)
  refine writing.2 slot written entry.wait fun queue => ?_
  rw [slotHazard_of_found state found]
  refine ((entails_combine_right _ _).at counter).trans ?_
  intro bound asked
  exact ⟨bound, by rw [Requirement.get_only, apart, asked]; rfl, Nat.le_refl bound⟩

end Registers

section Fences

/-- What looking at a fence adds to a requirement. -/
def fenceHazard (scope : Scope) (wait : Requirement) (index : Fin storageCount) : Requirement :=
  if (visibleEvents setting.target scope (state.fence index).events).isEmpty then wait
  else wait.combine (state.fence index).wait

/-- Looking at a fence adds to what is required. -/
theorem entailsAt_fenceHazard (scope : Scope) (counter : Counter) (wait : Requirement)
    (index : Fin storageCount) :
    EntailsAt counter (state.fenceHazard setting scope wait index) wait := by
  unfold fenceHazard
  split
  · exact (Entails.refl _).at counter
  · exact (entails_combine_left _ _).at counter

/-- An access waits for the fences of all the memory that it orders, unless it orders for its own
wave at most. -/
theorem fenceWait_eq (wait : Requirement) (sync : Sync) (semantics : Semantics) :
    state.fenceWait setting wait sync semantics =
      if !sync.semantics.intersects semantics || sync.scope ≤ waveScope setting.target then wait
      else sync.storage.indices.foldl (state.fenceHazard setting sync.scope) wait :=
  rfl

/-- Looking at fences adds to what is required. -/
theorem entails_fenceWait (wait : Requirement) (sync : Sync) (semantics : Semantics) :
    Entails (state.fenceWait setting wait sync semantics) wait := by
  rw [fenceWait_eq]
  split
  · exact Entails.refl _
  · intro counter
    exact (entailsAt_foldl id (state.entailsAt_fenceHazard setting sync.scope counter)
      sync.storage.indices wait).1

/-- A synchronization waits for the accesses to the memory it orders. -/
theorem fenceWait_entails {sync : Sync} {semantics : Semantics}
    (orders : sync.semantics.intersects semantics = true)
    (wide : ¬ sync.scope ≤ waveScope setting.target) {index : Fin storageCount}
    (named : sync.storage.has index = true)
    (visible : (visibleEvents setting.target sync.scope (state.fence index).events).isEmpty = false)
    (wait : Requirement) :
    Entails (state.fenceWait setting wait sync semantics) (state.fence index).wait := by
  have listed : index ∈ sync.storage.indices :=
    List.mem_filter.mpr ⟨List.mem_finRange index, named⟩
  rw [fenceWait_eq, if_neg (by simp [orders, wide])]
  intro counter
  refine (entailsAt_foldl id (state.entailsAt_fenceHazard setting sync.scope counter)
    sync.storage.indices wait).2 index listed _ fun wait => ?_
  rw [id_eq, visible, if_neg Bool.false_ne_true]
  exact (entails_combine_right _ _).at counter

end Fences

/-- What an instruction needs before its registers are looked at: everything drains where that is
due, and so do the counters of an ordered section that is left. -/
structure StartsFrom (instr : Instr) (first : Requirement) : Prop where
  everything : instr.opcode = .sSetpcB64 ∨ setting.forceWaits = true →
    Entails first (state.drainAll ∅)
  orderedSection : setting.target.errata.overlappedWaves = true →
    leavesOrderedSection setting.generation instr = true →
      Entails first (.drain ∅ (state.orderedSectionCounters setting))

/-- The needs of an instruction start from what has to drain, go on with the hazards of its
registers, and end with the fences of the memory it orders. -/
theorem of_needs (instr : Instr) (footprint : Footprint) (sync : Sync) (delay : Delay) :
    ∃ first late, StartsFrom setting state instr first ∧
      Entails late (state.registerHazards setting instr footprint { wait := first, delay }).wait ∧
      (instr.opcode = .sDcacheWb ∨ state.readsStaleScalar setting instr = true →
        EntailsAt .lgkm late { lgkm := some 0 }) ∧
      (state.needs setting instr footprint sync delay).wait = state.dropIdle
        (if instr.opcode = .pBarrier then
          state.fenceWait setting late instr.sync Semantics.acquireRelease
        else state.fenceWait setting late sync Semantics.release) := by
  unfold needs
  extract_lets drained first queue late scalar ordered final
  have fromScalar : Entails ordered scalar := by
    change Entails (if _ then _ else _) _
    split
    · exact entails_combine_left _ _
    · exact Entails.refl _
  refine ⟨first, ordered, ⟨?_, ?_⟩, ?_, ?_, rfl⟩
  · intro drains
    have start : drained = state.drainAll ∅ := if_pos drains
    change Entails (if _ then _ else _) _
    rw [← start]
    split
    · exact entails_drain _ _
    · exact Entails.refl _
  · intro erratum leaves
    have start : first = drained.drain (state.orderedSectionCounters setting) :=
      if_pos (by rw [erratum, leaves]; rfl)
    intro counter bound asked
    rw [Requirement.get_drain, Requirement.get_empty] at asked
    refine ⟨0, ?_, Nat.zero_le bound⟩
    rw [start, Requirement.get_drain]
    split at asked
    · rename_i chosen
      rw [if_pos chosen]
    · cases asked
  · have fromLate : Entails scalar late := by
      change Entails (if _ then _ else _) _
      split
      · exact entails_set_zero _ _
      · exact Entails.refl _
    exact fromScalar.trans fromLate
  · intro settles
    have set : scalar = late.set .lgkm (some 0) := if_pos (by simpa using settles)
    refine (fromScalar.at .lgkm).trans fun bound asked => ⟨0, ?_, Nat.zero_le bound⟩
    rw [set, Requirement.get_set, if_pos rfl]

variable {setting state}

/-- An instruction needs what the hazards of its registers ask for, on every counter in flight. -/
theorem entailsAt_needs {instr : Instr} {footprint : Footprint} {counter : Counter}
    (busy : state.inFlight.holds counter = true) {wait : Requirement}
    (hazard : ∀ queue,
      EntailsAt counter (state.registerHazards setting instr footprint queue).wait wait)
    (sync : Sync) (delay : Delay) :
    EntailsAt counter (state.needs setting instr footprint sync delay).wait wait := by
  obtain ⟨first, late, _, hazards, _, needed⟩ := state.of_needs setting instr footprint sync delay
  rw [needed]
  refine (state.entailsAt_dropIdle _ busy).trans (EntailsAt.trans ?_ ((hazards.at counter).trans
    (hazard _)))
  split <;> exact (state.entails_fenceWait setting _ _ _).at counter

/-- A counter in flight that has to drain at the start has to drain in the end. -/
theorem get_needs_of_starts {instr : Instr} {counter : Counter}
    (busy : state.inFlight.holds counter = true) {wait : Requirement}
    (starts : ∀ first, StartsFrom setting state instr first → Entails first wait)
    (drains : wait.get counter = some 0) (footprint : Footprint) (sync : Sync) (delay : Delay) :
    (state.needs setting instr footprint sync delay).wait.get counter = some 0 := by
  obtain ⟨first, late, start, hazards, _, needed⟩ :=
    state.of_needs setting instr footprint sync delay
  have fences : Entails (if instr.opcode = .pBarrier then
      state.fenceWait setting late instr.sync Semantics.acquireRelease
    else state.fenceWait setting late sync Semantics.release) late := by
    split <;> exact state.entails_fenceWait setting _ _ _
  have collected := ((fences.trans hazards).trans
    (state.entails_registerHazards setting instr footprint _)).trans (starts first start)
  have kept := (state.entailsAt_dropIdle _ busy).trans (collected.at counter)
  rw [← needed] at kept
  obtain ⟨bound, found, below⟩ := kept 0 drains
  rw [found, Nat.le_zero.mp below]

/-- An instruction needs the fences of the memory it orders before it is issued: a barrier those of
acquire and release, any other instruction those of release. -/
theorem needs_entailsAt_fence {instr : Instr} {counter : Counter}
    (busy : state.inFlight.holds counter = true)
    (orders : instr.sync.semantics.intersects (if instr.opcode = .pBarrier then
      Semantics.acquireRelease else Semantics.release) = true)
    (wide : ¬ instr.sync.scope ≤ waveScope setting.target) {index : Fin storageCount}
    (named : instr.sync.storage.has index = true)
    (visible : (visibleEvents setting.target instr.sync.scope
      (state.fence index).events).isEmpty = false) (footprint : Footprint) (delay : Delay) :
    EntailsAt counter (state.needs setting instr footprint instr.sync delay).wait
      (state.fence index).wait := by
  obtain ⟨first, late, _, _, _, needed⟩ :=
    state.of_needs setting instr footprint instr.sync delay
  rw [needed]
  refine (state.entailsAt_dropIdle _ busy).trans ?_
  split
  · rename_i barrier
    rw [if_pos barrier] at orders
    exact (state.fenceWait_entails setting orders wide named visible late).at counter
  · rename_i other
    rw [if_neg other] at orders
    exact (state.fenceWait_entails setting orders wide named visible late).at counter

/-- A write-back of the scalar cache, and a scalar load that may read stale data, need the counter
of local memory to drain. -/
theorem needs_entailsAt_scalar {instr : Instr} (busy : state.inFlight.holds .lgkm = true)
    (settles : instr.opcode = .sDcacheWb ∨ state.readsStaleScalar setting instr = true)
    (footprint : Footprint) (sync : Sync) (delay : Delay) :
    EntailsAt .lgkm (state.needs setting instr footprint sync delay).wait { lgkm := some 0 } := by
  obtain ⟨first, late, _, _, scalar, needed⟩ :=
    state.of_needs setting instr footprint sync delay
  rw [needed]
  refine (state.entailsAt_dropIdle _ busy).trans (EntailsAt.trans ?_ (scalar settles))
  split <;> exact (state.entails_fenceWait setting _ _ _).at .lgkm

/-- Once an instruction is issued, the fences of the memory it acquires are due. -/
theorem afterIssue_entailsAt_fence {instr : Instr} {counter : Counter}
    (busy : state.inFlight.holds counter = true)
    (orders : instr.sync.semantics.intersects Semantics.acquire = true)
    (wide : ¬ instr.sync.scope ≤ waveScope setting.target) {index : Fin storageCount}
    (named : instr.sync.storage.has index = true)
    (visible : (visibleEvents setting.target instr.sync.scope
      (state.fence index).events).isEmpty = false) :
    EntailsAt counter (state.afterIssue setting instr) (state.fence index).wait := by
  have fences := state.fenceWait_entails setting orders wide named visible ∅
  unfold afterIssue
  refine (state.entailsAt_dropIdle _ busy).trans ?_
  split
  · exact ((entails_combine_left _ _).trans fences).at counter
  · exact fences.at counter

end State

end WaveHazard.Hazard
