import WaveHazard.Proofs.Completion
import WaveHazard.Proofs.Needs
import WaveHazard.Proofs.Routes

/-! # Acquire and release

A release is issued once the accesses in front of it have completed, and nothing is issued behind
an acquire before those in front of it and its own access have. A barrier does both at the place
where it stood. Only accesses count that others can see, and only those that the hardware does not
keep in order by itself as far as the scope of the synchronization reaches.
-/

namespace WaveHazard

open Machine Wait Hazard

namespace Hazard

/-- Whether an operation needs no wait to stay in order as far as a scope reaches. Local memory is
private to the workgroup, which may be a single wave; outside of workgroup-processor mode the first
cache keeps the memory operations of a workgroup in order. -/
def Operation.staysOrdered (target : Target) (scope : Scope) (operation : Operation) : Bool :=
  (operation.event = .lds ∧ target.workgroupSize ≤ target.waveSize) ∨
    (target.wgpMode = false ∧ scope ≤ .workgroup ∧
      operation.event ∈ [.vmem, .vmemStore, .smem])

/-- Every access to a kind of memory that is in flight and that others can see stays in order by
itself as far as a scope reaches. -/
def Published (target : Target) (scope : Scope) (index : Fin storageCount) (flight : Flight) :
    Prop :=
  ∀ token ∈ flight, token.operation.accesses index = true →
    token.operation.staysOrdered target scope = true

/-- Beyond a wave, local memory is left out where a workgroup is a single wave. -/
theorem narrower_le_waveScope_iff {target : Target} {scope : Scope}
    (wide : ¬ scope ≤ State.waveScope target) :
    scope.narrower .workgroup ≤ State.waveScope target ↔
      target.workgroupSize ≤ target.waveSize := by
  unfold State.waveScope at wide ⊢
  split at wide
  · rename_i fits
    rw [if_pos fits]
    refine iff_of_true ?_ fits
    cases scope <;> decide
  · rename_i exceeds
    rw [if_neg exceeds]
    refine iff_of_false ?_ exceeds
    revert wide
    cases scope <;> decide

/-- The events that a synchronization waits for are those of operations that do not stay in order by
themselves. -/
theorem holds_visibleEvents {target : Target} {scope : Scope}
    (wide : ¬ scope ≤ State.waveScope target) {events : Events} {operation : Operation}
    (named : events.holds operation.event = true)
    (exposed : operation.staysOrdered target scope = false) :
    (State.visibleEvents target scope events).holds operation.event = true := by
  unfold Operation.staysOrdered at exposed
  rw [decide_eq_false_iff_not, not_or, ← narrower_le_waveScope_iff wide] at exposed
  obtain ⟨shared, cached⟩ := exposed
  unfold State.visibleEvents
  have outside : Events.holds (if scope.narrower .workgroup ≤ State.waveScope target then
      events.diff (Events.single .lds) else events) operation.event = true := by
    split
    · rename_i single
      have other : Event.lds ≠ operation.event := fun same => shared ⟨same.symm, single⟩
      rw [Events.holds_diff, named, Events.holds_single, decide_eq_false other]
      rfl
    · exact named
  dsimp only
  split
  · rename_i near
    rw [Bool.and_eq_true, Bool.not_eq_true', decide_eq_true_eq] at near
    have other : operation.event ∉ [Event.vmem, .vmemStore, .smem] :=
      fun member => cached ⟨near.1, near.2, member⟩
    rw [Events.holds_diff, outside, Events.holds_ofList, decide_eq_false other]
    rfl
  · exact outside

/-- Where the wait of a fence that is not idle is over, the accesses it stands for are
published. -/
theorem published_of_met {target : Target} {state : State} {flight : Flight}
    (tallied : Tallied target.generation (Fenced target.generation state) flight)
    {index : Fin storageCount} {scope : Scope} (wide : ¬ scope ≤ State.waveScope target)
    {passed : Requirement} (met : Met passed flight)
    (asks : (State.visibleEvents target scope (state.fence index).events).isEmpty = false →
      ∀ counter, state.inFlight.holds counter = true →
        EntailsAt counter passed (state.fence index).wait) :
    Published target scope index flight := by
  intro token member accesses
  obtain ⟨older, younger, split⟩ := List.append_of_mem member
  subst split
  have fenced := tallied older token younger rfl
  have fence := fenced.fences index accesses
  cases exposed : token.operation.staysOrdered target scope with
  | true => rfl
  | false =>
      have visible := Events.isEmpty_eq_false (holds_visibleEvents wide fence.named exposed)
      exact (fence.absurd_of_met rfl (asks visible token.counter fenced.inFlight) met).elim

/-- Where the waits of a release or a barrier are over, the accesses in front of it are
published. -/
theorem published_of_require {setting : Setting} {state after : State} {queue asked : Queue}
    {fence : Instr} {footprint : Footprint}
    (required : state.require setting queue fence footprint fence.sync = (after, asked))
    (orders : fence.sync.semantics.intersects (if fence.opcode = .pBarrier then
      Semantics.acquireRelease else Semantics.release) = true)
    (wide : ¬ fence.sync.scope ≤ State.waveScope setting.target) {index : Fin storageCount}
    (named : fence.sync.storage.has index = true) {flight : Flight}
    (tallied : Tallied setting.generation (Fenced setting.generation state) flight)
    (met : Met asked.wait flight) :
    Published setting.target fence.sync.scope index flight := by
  have needed := (of_require required).1.trans (entails_combine_right _ _)
  refine published_of_met tallied wide met fun visible counter busy => ?_
  exact (needed.at counter).trans
    (State.needs_entailsAt_fence busy orders wide named visible footprint queue.delay)

/-- Where what became due with an acquire is over, its own access and those in front of it are
published. -/
theorem published_of_afterIssue {setting : Setting} {state : State} {fence : Instr}
    (orders : fence.sync.semantics.intersects Semantics.acquire = true)
    (wide : ¬ fence.sync.scope ≤ State.waveScope setting.target) {index : Fin storageCount}
    (named : fence.sync.storage.has index = true) {flight : Flight}
    (tallied : Tallied setting.generation (Fenced setting.generation state) flight)
    (met : Met (state.afterIssue setting fence) flight) :
    Published setting.target fence.sync.scope index flight :=
  published_of_met tallied wide met fun visible _ busy =>
    State.afterIssue_entailsAt_fence busy orders wide named visible

/-- Barriers are replaced by the waits they ask for. -/
theorem isAbsorbed_of_barrier {generation : Generation} {instr : Instr}
    (barrier : instr.opcode = .pBarrier) : isAbsorbed generation instr = true := by
  unfold isAbsorbed Instr.isBarrier Instr.encoding
  rw [barrier]
  simp [Opcode.encoding, Opcode.facts]

end Hazard

namespace InsertWaits

/-- Along every route over the edges of either graph and for every order in which operations leave,
an instruction that synchronizes a kind of memory beyond a wave finds the accesses to it published.
A barrier that acquires or releases does so where the next ordinary instruction is issued or the
block ends, a release where it is issued itself, and an acquire, its own access included, where the
next ordinary instruction behind it is issued or the block ends. Places in the block and in its code
belong together when the same number of ordinary instructions stands in front of them. -/
theorem accesses_published_at_fences {config : Config} {target : Target}
    {program rewritten : Program} (edges : WellFormed.checkGraphs program = .ok ())
    (quiet : program.pendingLocalAccess = false)
    (rewrites : Rewrites config target program rewritten) {route : List Nat} {here : Nat}
    (leads : program.Leads program.EitherEdge route here) {source block : Block}
    (original : program.blocks[here]? = some source) (visible : source.isExempt = false)
    (found : rewritten.blocks[here]? = some block) {before after : List Instr} {fence : Instr}
    (place : source.instrs = before ++ fence :: after) {index : Fin storageCount}
    (named : fence.sync.storage.has index = true)
    (wide : ¬ fence.sync.scope ≤ State.waveScope target) {passed ahead : List Instr}
    (whole : block.instrs = passed ++ ahead) {flight : Flight}
    (stands : Stands target.generation (entryFlight target.generation program)
      (rewritten.codeAlong route ++ passed) ahead flight) :
    (fence.opcode = .pBarrier → fence.sync.semantics.intersects Semantics.acquireRelease = true →
      passed.countP (isOrdinary target.generation) =
        before.countP (fun instr => !isAbsorbed target.generation instr) →
      Published target fence.sync.scope index flight) ∧
    (isAbsorbed target.generation fence = false →
      fence.sync.semantics.intersects Semantics.release = true →
      passed.countP (isOrdinary target.generation) =
        before.countP (fun instr => !isAbsorbed target.generation instr) →
      (∃ ready rest, ahead = (absorbExports ready fence).instr :: rest) ∧
        Published target fence.sync.scope index flight) ∧
    (isAbsorbed target.generation fence = false →
      fence.sync.semantics.intersects Semantics.acquire = true →
      passed.countP (isOrdinary target.generation) =
        before.countP (fun instr => !isAbsorbed target.generation instr) + 1 →
      Published target fence.sync.scope index flight) := by
  have upheld := upheld_fenced (config.setting target program)
  obtain ⟨state, left, schedule, scheduled, enters⟩ := rewrites.enters edges quiet upheld
    (carried_fenced program target.generation) False.elim leads original visible found
  obtain ⟨start, arriving, stands⟩ := stands.split
  have fits := enters start arriving
  refine ⟨?_, ?_, ?_⟩
  · intro barrier orders count
    obtain ⟨middle, queue, footprint, next, asked, _, required, tallied, met, _⟩ :=
      required_at upheld scheduled.transfer scheduled.lowered place (fun _ _ => False.elim) whole
        count fits stands
    exact published_of_require required (by rw [if_pos barrier]; exact orders) wide named tallied
      met
  · intro kept orders count
    have other : fence.opcode ≠ .pBarrier := by
      intro barrier
      rw [isAbsorbed_of_barrier barrier] at kept
      cases kept
    obtain ⟨middle, queue, footprint, next, asked, _, required, tallied, met, emitted⟩ :=
      required_at upheld scheduled.transfer scheduled.lowered place (fun _ _ => False.elim) whole
        count fits stands
    exact ⟨emitted kept, published_of_require required (by rw [if_neg other]; exact orders) wide
      named tallied met⟩
  · intro kept orders count
    obtain ⟨issued, tallied, met⟩ := due_at upheld scheduled.transfer scheduled.lowered place
      (fun _ _ => False.elim) kept whole count fits stands
    exact published_of_afterIssue orders wide named tallied met

namespace AccessThenBarrier

/-- A target without workgroup-processor mode. -/
def target (workgroupSize : Nat) : Target :=
  { Target.ofGeneration .gfx10p3 with workgroupSize }

/-- A barrier that acquires and releases a kind of memory. -/
def barrier (storage : Storage) (scope : Scope) : Instr where
  opcode := .pBarrier
  payload := .barrier { storage, semantics := Semantics.acquireRelease, scope }

/-- An instruction that waits for nothing. -/
def pause : Instr := .immediate .sNop 0

/-- A message. -/
def message : Instr := .immediate .sSendmsg 0

/-- A store to a buffer. -/
def store : Instr := { opcode := .bufferStoreDword, payload := .memory (.ofStorage .buffer) }

/-- A store to local memory. -/
def localStore : Instr where
  opcode := .dsWriteB32
  payload := .dataShare (.ofStorage .shared) false 0 0

/-- The wait for stores. -/
def waitForStores : Instr where
  opcode := .sWaitcntVscnt
  operands := [.reg .null (.scalar 1)]
  payload := .scalar 0

/-- The message in flight. -/
def sent : Token := ⟨{ event := .sendmsg }, .lgkm⟩

/-- The store in flight. -/
def stored : Token := ⟨{ event := .vmemStore, sync := .ofStorage .buffer }, .vs⟩

/-- The store to local memory in flight. -/
def storedLocally : Token := ⟨{ event := .lds, sync := .ofStorage .shared }, .lgkm⟩

/-- A message and a store, and a barrier for the device behind them. -/
def published : Block where
  kind := .flag 0
  instrs := [message, store, barrier .buffer .device, pause]

/-- A wait for the store takes the place of the barrier. -/
theorem rewrites_published : Rewrites { forceWaits := false, maxVisits := 1 } (target 256)
    { blocks := #[published] }
    { blocks := #[{ published with instrs := [message, store, waitForStores, pause] }] } :=
  rewrites_single (by decide) (by decide) (by decide)
    (Outcome.eq_ok_of_toOption (by decide +kernel))

/-- Behind that wait only the message is in flight. -/
theorem stands_published :
    Stands .gfx10p3 [] [message, store, waitForStores] [pause] [sent] := by
  constructor
  · refine .issue (by decide) (.issue (by decide) ?_)
    change Runs .gfx10p3 [sent, stored] [waitForStores] [sent]
    refine .retire (.leave [sent] stored [] (.inr (by decide))) ?_
    exact .issue (by decide) (.done _)
  · rintro instr rest ⟨rfl, rfl⟩
    decide

end AccessThenBarrier

open AccessThenBarrier in
/-- The store is not in flight behind the barrier, but the message is. -/
theorem store_published_behind_barrier :
    Stands .gfx10p3 [] [message, store, waitForStores] [pause] [sent] ∧
      Published (target 256) .device 0 [sent] := by
  have place : published.instrs = [message, store] ++ barrier .buffer .device :: [pause] := rfl
  refine ⟨stands_published, ?_⟩
  exact (accesses_published_at_fences (by decide) rfl rewrites_published .start rfl (by decide) rfl
    place (by decide) (by decide) rfl stands_published).1 rfl (by decide) (by decide)

namespace AccessThenBarrier

/-- An access and a barrier behind it. -/
def fenced (access : Instr) (storage : Storage) (scope : Scope) : Block where
  kind := .flag 0
  instrs := [access, barrier storage scope, pause]

/-- Although a barrier orders a kind of memory beyond a wave, the instruction behind it is issued
while an access to that memory is in flight. -/
structure Overtaken (target : Target) (access : Instr) (token : Token) (storage : Storage)
    (scope : Scope) (index : Fin storageCount) : Prop where
  named : storage.has index = true
  wide : ¬ scope ≤ State.waveScope target
  accesses : token.operation.accesses index = true
  edges : WellFormed.checkGraphs { blocks := #[fenced access storage scope] } = .ok ()
  rewrites : Rewrites { forceWaits := false, maxVisits := 1 } target
    { blocks := #[fenced access storage scope] }
    { blocks := #[{ fenced access storage scope with instrs := [access, pause] }] }
  stands : Stands target.generation [] [access] [pause] [token]

/-- An access that nothing holds back is in flight behind itself. -/
theorem stands_behind {generation : Generation} {access : Instr} {token : Token}
    (launched : launch generation access = [token])
    (free : Met (blocksOn generation access) []) :
    Stands generation [] [access] [pause] [token] := by
  constructor
  · refine .issue free ?_
    rw [launched]
    exact .done _
  · rintro instr rest ⟨rfl, rfl⟩
    refine ⟨by cases generation <;> decide, ?_⟩
    intro counter bound asked
    cases counter <;> cases asked

end AccessThenBarrier

open AccessThenBarrier in
/-- A barrier does not wait for all accesses: outside of workgroup-processor mode a store to a
buffer is in flight behind a barrier for the workgroup, and where a workgroup is a single wave a
store to local memory is in flight behind a barrier for the device. -/
theorem barrier_overtaken :
    Overtaken (target 256) store stored .buffer .workgroup 0 ∧
      Overtaken (target 32) localStore storedLocally .shared .device 3 := by
  refine ⟨⟨by decide, by decide, by decide, by decide, ?_, ?_⟩,
    ⟨by decide, by decide, by decide, by decide, ?_, ?_⟩⟩
  · exact rewrites_single (by decide) (by decide) (by decide)
      (Outcome.eq_ok_of_toOption (by decide +kernel))
  · exact stands_behind rfl (by decide)
  · exact rewrites_single (by decide) (by decide) (by decide)
      (Outcome.eq_ok_of_toOption (by decide +kernel))
  · exact stands_behind rfl (by decide)

end InsertWaits

end WaveHazard
