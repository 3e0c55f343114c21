import WaveHazard.Proofs.DelayEncoding
import WaveHazard.Proofs.Representation
import WaveHazard.Proofs.Transit

/-! # Whatever is queued can be encoded

Lowering a queue faults in two ways: on a wait for a counter that the generation does not have, and
on a scalar latency below zero. Neither is ever queued. The waits in a queue are for counters in
flight, and only counters that the generation has are in flight; a delay starts from nothing and is
only combined with others. So the schedule of a block can be lowered whenever there is one.
-/

namespace WaveHazard

open Machine Wait Hazard Outcome

namespace Wait

namespace Requirement

/-- Only counters that the generation has are waited for. -/
def Known (generation : Generation) (wait : Requirement) : Prop :=
  ∀ counter, wait.isSet counter = true → generation.HasCounter counter

variable {generation : Generation} {wait other : Requirement}

/-- A requirement without thresholds waits for no counter. -/
theorem known_empty : Known generation ∅ := by
  intro counter set
  rw [isSet, get_empty] at set
  cases set

/-- A combined requirement waits for the counters of both parts only. -/
theorem Known.combine (first : wait.Known generation) (second : other.Known generation) :
    (wait.combine other).Known generation := by
  intro counter set
  rw [isSet_combine, Bool.or_eq_true] at set
  exact set.elim (first counter) (second counter)

/-- A requirement that bounds fewer counters is known as well. -/
theorem Known.of_isSet (known : wait.Known generation)
    (sets : ∀ counter, other.isSet counter = true → wait.isSet counter = true) :
    other.Known generation :=
  fun counter set => known counter (sets counter set)

/-- Forgetting one threshold adds no other. -/
theorem isSet_set_none {counter dropped : Counter}
    (set : (wait.set dropped none).isSet counter = true) : wait.isSet counter = true := by
  unfold isSet at *
  rw [get_set] at set
  split at set
  · cases set
  · exact set

/-- Clamping keeps the counters that have a threshold. -/
theorem isSet_clamp (wait : Requirement) (generation : Generation) (counter : Counter) :
    (wait.clamp generation).isSet counter = wait.isSet counter := by
  unfold isSet clamp
  rw [get_ofFn, Option.isSome_map]

/-- A requirement whose thresholds fit can be packed into one wait. -/
theorem succeeds_lowerPacked (known : wait.Known generation) (fits : FitsFields generation wait) :
    Succeeds (wait.lowerPacked generation) := by
  have packed (stores : List Instr) : Succeeds (do
      let rest := wait.set .vs none
      if rest.isEmpty then return stores
      return stores ++ [.immediate .sWaitcnt (← rest.pack generation)]) := by
    exact succeeds_ite (fun _ => ⟨_, rfl⟩) fun _ =>
      (fits.set_none .vs).packed.succeeds_pack.bind fun _ _ => ⟨_, rfl⟩
  unfold lowerPacked
  dsimp only
  split
  · exact (succeeds_ok _).bind fun stores _ => packed stores
  · rename_i n bound
    have counted : generation.HasCounter .vs := known .vs (by simp [isSet, get, bound])
    have late : .gfx10 ≤ generation := by
      by_contra early
      exact absurd counted (by simp [Generation.HasCounter, Generation.fieldMax, early])
    rw [if_pos late]
    exact (succeeds_ok _).bind fun stores _ => packed stores

/-- A requirement for counters of the generation can be lowered, in whichever form it has. -/
theorem succeeds_lower (known : wait.Known generation) : Succeeds (wait.lower generation) := by
  unfold lower
  refine succeeds_ite (fun _ => succeeds_ok _) fun _ => succeeds_lowerPacked
    (known.of_isSet fun counter set => ?_) (fitsFields_clamp generation wait)
  rwa [isSet_clamp] at set

end Requirement

/-- A scalar latency that has not run out can be encoded. -/
theorem Delay.succeeds_lower {delay : Delay} (forward : 0 ≤ delay.saluCycles) :
    Succeeds delay.lower :=
  ⟨_, delay.lower_eq_ok forward⟩

end Wait

namespace Hazard

variable {generation : Generation} {setting : Setting}

/-- Code can be emitted in two parts when each part can. -/
theorem Lowered.succeeds_append {first second : Lowered} (one : Succeeds first.result)
    (two : Succeeds second.result) : Succeeds (first.append second).result := by
  obtain ⟨code, done⟩ := one
  unfold Lowered.append
  rw [done]
  exact two.map _

/-- The queue can be lowered: its waits are for counters that there are, and its scalar latency has
not run out. -/
structure Queue.Encodable (generation : Generation) (queue : Queue) : Prop where
  wait : queue.wait.Known generation
  delay : 0 ≤ queue.delay.saluCycles

/-- A queue that is encodable can be lowered: first its waits, then its delay. -/
theorem Queue.Encodable.lower {queue : Queue} (encodable : queue.Encodable generation) :
    Succeeds (queue.lower generation).result := by
  unfold Queue.lower
  dsimp only
  refine Lowered.succeeds_append ?_ ?_
  · split
    · exact succeeds_ok _
    · exact Requirement.succeeds_lower encodable.wait
  · split
    · exact succeeds_ok _
    · exact (Delay.succeeds_lower encodable.delay).map _

/-- A schedule can be lowered when all its queues are encodable. -/
theorem Schedule.succeeds_lower {placed : List Placement} {trailing : Queue}
    (each : ∀ placement ∈ placed, placement.queue.Encodable generation)
    (last : trailing.Encodable generation) :
    Succeeds (Schedule.lower generation { placed, trailing }).result := by
  induction placed with
  | nil => exact last.lower
  | cons first rest ih =>
      obtain ⟨here, others⟩ := List.forall_mem_cons.mp each
      exact Lowered.succeeds_append (Lowered.succeeds_append here.lower (succeeds_ok _)) (ih others)

namespace State

variable {state after : State} {instr : Instr} {queue passed : Queue} {footprint : Footprint}
  {sync : Sync}

/-- An effect that counts an event of the generation puts only its counters in flight. -/
theorem exist_apply (exist : state.inFlight.Exist generation) {effect : Effect}
    (issued : ∀ operation, effect.operation? = some operation →
      generation.issues operation.1 = true) :
    (state.apply generation effect).inFlight.Exist generation := by
  cases effect with
  | count event sync =>
      change (state.count generation event sync).inFlight.Exist generation
      rw [inFlight_count]
      exact exist.or (Counters.exist_countersOf (issued (event, sync) rfl))
  | flatLoad sync =>
      have flat : (generation.countersOf .flat).Exist generation := Counters.exist_countersOf rfl
      rw [countersOf_flat] at flat
      exact exist.or flat
  | track slots entry => exact exist
  | scalarStore => exact exist

/-- All effects of an instruction put only counters of the generation in flight. -/
theorem exist_applyAll (exist : state.inFlight.Exist generation) {effects : List Effect}
    (issued : ∀ effect ∈ effects, ∀ operation, effect.operation? = some operation →
      generation.issues operation.1 = true) :
    (state.applyAll generation effects).inFlight.Exist generation := by
  induction effects generalizing state with
  | nil => exact exist
  | cons first rest ih =>
      obtain ⟨here, others⟩ := List.forall_mem_cons.mp issued
      exact ih (exist_apply exist here) others

/-- An instruction only counts what there are counters for. -/
theorem exist_issueAll (exist : state.inFlight.Exist setting.generation)
    (issued : issueAll setting state instr = .ok after) :
    after.inFlight.Exist setting.generation := by
  have asynchronous {state : State} (exist : state.inFlight.Exist setting.generation)
      (issued : state.issue setting.generation instr = .ok after) :
      after.inFlight.Exist setting.generation := by
    obtain ⟨effects, read, rfl⟩ := Outcome.map_eq_ok.mp issued
    exact exist_applyAll exist fun effect member operation =>
      Effect.issues_of_follows (@Effect.follows_of_ofInstr _ ∅ _ _ read) member
  unfold issueAll at issued
  dsimp only at issued
  split at issued
  · obtain ⟨middle, arithmetic, issued⟩ := Outcome.bind_eq_ok.mp issued
    obtain ⟨effects, read, done⟩ := Outcome.bind_eq_ok.mp arithmetic
    cases done
    refine asynchronous ?_ issued
    rw [inFlight_ageArithmetic]
    refine exist_applyAll exist fun effect member operation counts => ?_
    obtain ⟨slots, event, logical, onRead, loads, rfl, _⟩ :=
      Effect.tracks_of_arithmetic read effect member
    cases counts
  · exact asynchronous exist issued

/-- A requirement without idle counters waits only for those in flight, which exist. -/
theorem known_dropIdle (exist : state.inFlight.Exist generation) (wait : Requirement) :
    (state.dropIdle wait).Known generation := by
  intro counter set
  rw [dropIdle, Requirement.isSet_only, Bool.and_eq_true] at set
  exact exist.hasCounter set.1

/-- The waits and delays of the source are encodable once idle counters are dropped. -/
theorem encodable_absorb (exist : state.inFlight.Exist setting.generation)
    (encodable : queue.Encodable setting.generation) (instr : Instr) :
    (absorb setting state queue instr).Encodable setting.generation := by
  unfold absorb
  constructor
  · dsimp only
    split
    · exact encodable.wait.combine (known_dropIdle exist _)
    · exact encodable.wait
  · dsimp only
    split
    · exact encodable.delay.trans (le_max_left _ _)
    · exact encodable.delay

/-- Draining counters for flat accesses bounds no further counter. -/
theorem isSet_flatWait {wait : Requirement} {counter : Counter}
    (set : (state.flatWait wait).isSet counter = true) : wait.isSet counter = true := by
  cases bound : wait.isSet counter with
  | true => rfl
  | false =>
      rw [Requirement.isSet, flatWait, Requirement.get_ofFn] at set
      simp only [bound, Bool.and_false, Bool.false_eq_true, if_false] at set
      exact bound.symm.trans set

/-- A demand asks for counters in flight only, and the ones that remain in flight exist. -/
theorem encodable_require (exist : state.inFlight.Exist setting.generation)
    (encodable : queue.Encodable setting.generation)
    (required : state.require setting queue instr footprint sync = (after, passed)) :
    after.inFlight.Exist setting.generation ∧ passed.Encodable setting.generation := by
  have needed : (state.needs setting instr footprint sync queue.delay).wait.Known
      setting.generation := by
    unfold State.needs
    exact known_dropIdle exist _
  have known := encodable.wait.combine needed
  refine ⟨?_, ?_, encodable.delay.trans (delay_le_of_require required).saluCycles⟩
  · obtain ⟨_, middle, moved, flatVm, flatLgkm, scalarStore, rfl⟩ := of_require required
    suffices kept : middle.inFlight.Exist setting.generation from kept
    rcases moved with rfl | rfl
    · exact exist
    · exact fun position held => exist position (has_of_inFlight_pass held)
  · unfold State.require at required
    dsimp only at required
    split at required <;> cases required
    · exact known
    · exact known.of_isSet fun _ => isSet_flatWait

/-- What is due behind an instruction is no delay, and idle counters are dropped from it. -/
theorem encodable_afterIssue (exist : state.inFlight.Exist setting.generation) (instr : Instr) :
    Queue.Encodable setting.generation { wait := state.afterIssue setting instr } where
  wait := known_dropIdle exist _
  delay := le_rfl

end State

/-- A queue stays encodable along a chain of demands. -/
theorem Requires.encodable {state final : State} {queue last : Queue}
    (requires : Requires setting state queue final last)
    (exist : state.inFlight.Exist setting.generation)
    (encodable : queue.Encodable setting.generation) :
    final.inFlight.Exist setting.generation ∧ last.Encodable setting.generation := by
  induction requires with
  | done state queue => exact ⟨exist, encodable⟩
  | step _ required _ ih =>
      obtain ⟨passed, asked⟩ := State.encodable_require exist encodable required
      exact ih passed asked

/-- A queue is encodable in front of every instruction that a run places. -/
theorem Crosses.encodable {state issued : State} {queue queued : Queue} {instr : Instr}
    (crosses : Crosses setting state queue instr issued queued)
    (exist : state.inFlight.Exist setting.generation)
    (encodable : queue.Encodable setting.generation) :
    issued.inFlight.Exist setting.generation ∧ queued.Encodable setting.generation := by
  obtain ⟨footprint, _, required, clause, issue⟩ := crosses
  obtain ⟨passed, asked⟩ :=
    State.encodable_require exist (State.encodable_absorb exist encodable instr) required
  obtain ⟨ready, queued⟩ := clause.encodable passed asked
  exact ⟨State.exist_issueAll ready issue, queued⟩

/-- A wait that moves into an export leaves the rest of the queue encodable. -/
theorem encodable_absorbExports {queue : Queue} (encodable : queue.Encodable generation)
    (instr : Instr) : (absorbExports queue instr).queue.Encodable generation := by
  unfold absorbExports
  split
  · exact ⟨encodable.wait.of_isSet fun _ => Requirement.isSet_set_none, encodable.delay⟩
  · exact encodable

/-- Everything that a run over instructions queues can be encoded. -/
theorem encodable_of_transferFrom {instrs : List Instr} {covered : Nat} {state final : State}
    {queue trailing : Queue} {placed : List Placement}
    (ran : transferFrom setting covered state queue instrs = .ok (final, trailing, placed))
    (exist : state.inFlight.Exist setting.generation)
    (encodable : queue.Encodable setting.generation) :
    final.inFlight.Exist setting.generation ∧ trailing.Encodable setting.generation ∧
      ∀ placement ∈ placed, placement.queue.Encodable setting.generation := by
  induction instrs generalizing covered state queue placed with
  | nil =>
      cases ran
      exact ⟨exist, encodable, fun _ member => nomatch member⟩
  | cons instr rest ih =>
      obtain ⟨issued, queued, crosses, proceeds⟩ := crosses_of_transferFrom ran
      obtain ⟨behind, ahead⟩ := crosses.encodable exist encodable
      cases proceeds with
      | absorb _ next => exact ih next behind ahead
      | place _ next =>
          obtain ⟨last, closing, others⟩ := ih next behind (State.encodable_afterIssue behind instr)
          exact ⟨last, closing,
            List.forall_mem_cons.mpr ⟨encodable_absorbExports ahead instr, others⟩⟩

end Hazard

/-- The schedule of a block can be lowered, and the block leaves only counters in flight that the
generation has. -/
theorem Block.lowers_of_transfer {setting : Setting} {block : Block} {state left : State}
    {schedule : Schedule} (exist : state.inFlight.Exist setting.generation)
    (transfer : block.transfer setting state = .ok (left, schedule)) :
    left.inFlight.Exist setting.generation ∧
      Succeeds (schedule.lower setting.generation).result := by
  obtain ⟨⟨final, trailing, placed⟩, ran, done⟩ := Outcome.bind_eq_ok.mp transfer
  cases done
  have nothing : (∅ : Queue).Encodable setting.generation := ⟨Requirement.known_empty, le_rfl⟩
  obtain ⟨last, closing, each⟩ := encodable_of_transferFrom ran exist nothing
  refine ⟨last, Schedule.succeeds_lower each ?_⟩
  split
  · refine ⟨fun counter set => ?_, closing.delay⟩
    rw [State.drainAll, Requirement.isSet_drain, Bool.or_eq_true] at set
    exact set.elim last.hasCounter (closing.wait counter)
  · exact closing

end WaveHazard
