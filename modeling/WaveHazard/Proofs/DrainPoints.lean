import WaveHazard.Proofs.Completion
import WaveHazard.Proofs.Needs
import WaveHazard.Proofs.Routes

/-! # Points where nothing is in flight

A jump to another shader part and the end of a block that hands its registers on find every counter
at zero, and with waits forced every ordinary instruction does. This rests on one fact: the counters
that the analysis believes to be in flight include all that are.
-/

namespace WaveHazard

open Machine Wait Hazard

namespace Hazard

/-- Nothing is in flight once all counters that may be above zero have drained. -/
theorem eq_nil_of_drained {generation : Generation} {state : State} {flight : Flight}
    (tallied : Tallied generation (Fenced generation state) flight) {wait : Requirement}
    (met : Met wait flight)
    (drains : ∀ counter, state.inFlight.holds counter = true → wait.get counter = some 0) :
    flight = [] := by
  cases flight with
  | nil => rfl
  | cons token rest =>
      have fenced := tallied [] token rest rfl
      have idle := met token.counter 0 (drains token.counter fenced.inFlight)
      simp [outstanding] at idle

/-- All that is in flight on a busy counter is waited for. -/
theorem get_drainAll {state : State} {counter : Counter} (wait : Requirement)
    (busy : state.inFlight.holds counter = true) : (state.drainAll wait).get counter = some 0 := by
  unfold State.drainAll
  rw [Requirement.get_drain, if_pos busy]

/-- An instruction that drains everything needs every counter in flight to drain. -/
theorem get_needs_of_drains {setting : Setting} {state : State} {instr : Instr}
    (drains : instr.opcode = .sSetpcB64 ∨ setting.forceWaits = true) {counter : Counter}
    (busy : state.inFlight.holds counter = true) (footprint : Footprint) (sync : Sync)
    (delay : Delay) :
    (state.needs setting instr footprint sync delay).wait.get counter = some 0 :=
  State.get_needs_of_starts busy (fun _ starts => starts.everything drains) (get_drainAll ∅ busy)
    footprint sync delay

/-- Where the waits of an instruction that drains everything are over, nothing is in flight. -/
theorem eq_nil_of_require {setting : Setting} {state after : State} {queue asked : Queue}
    {instr : Instr} {footprint : Footprint} {sync : Sync}
    (required : state.require setting queue instr footprint sync = (after, asked))
    (drains : instr.opcode = .sSetpcB64 ∨ setting.forceWaits = true) {flight : Flight}
    (tallied : Tallied setting.generation (Fenced setting.generation state) flight)
    (met : Met asked.wait flight) : flight = [] := by
  refine eq_nil_of_drained tallied met fun counter busy => ?_
  have entails := (of_require required).1.trans (entails_combine_right _ _)
  obtain ⟨bound, found, below⟩ :=
    entails counter 0 (get_needs_of_drains drains busy footprint sync queue.delay)
  rw [found, Nat.le_zero.mp below]

end Hazard

namespace InsertWaits

/-- A jump to another shader part is no wait. -/
theorem isOrdinary_of_setpc {generation : Generation} {instr : Instr}
    (jumps : instr.opcode = .sSetpcB64) : isOrdinary generation instr = true := by
  unfold isOrdinary Instr.wait?
  rw [jumps]
  split
  · split <;> rfl
  · rfl

/-- Along every route over the edges of either graph and for every order in which operations leave,
nothing is in flight when a jump to another shader part is issued, after the last instruction of a
block that hands its registers on, and, with waits forced, when any ordinary instruction is
issued. -/
theorem drained_at_drain_points {config : Config} {target : Target} {program rewritten : Program}
    (edges : WellFormed.checkGraphs program = .ok ())
    (quiet : program.pendingLocalAccess = false)
    (rewrites : Rewrites config target program rewritten) {route : List Nat} {here : Nat}
    (leads : program.Leads program.EitherEdge route here) {source block : Block}
    (original : program.blocks[here]? = some source) (visible : source.isExempt = false)
    (found : rewritten.blocks[here]? = some block) {flight : Flight} :
    (∀ passed instr rest, block.instrs = passed ++ instr :: rest →
      instr.opcode = .sSetpcB64 ∨
        (config.forceWaits = true ∧ isOrdinary target.generation instr = true) →
      Runs target.generation (entryFlight target.generation program)
        (rewritten.codeAlong route ++ passed) flight →
      Met (blocksOn target.generation instr) flight → flight = []) ∧
    (block.is BlockKind.endWithRegs = true →
      Runs target.generation (entryFlight target.generation program)
        (rewritten.codeAlong (route ++ [here])) flight → flight = []) := by
  have upheld := upheld_fenced (config.setting target program)
  obtain ⟨state, left, schedule, scheduled, enters⟩ := rewrites.enters edges quiet upheld
    (carried_fenced program target.generation) False.elim leads original visible found
  constructor
  · intro passed instr rest whole drains runs blocked
    have ordinary : isOrdinary target.generation instr = true := by
      rcases drains with jumps | ⟨_, ordinary⟩
      · exact isOrdinary_of_setpc jumps
      · exact ordinary
    obtain ⟨start, before, after⟩ := runs.split
    have stands : Stands target.generation start passed (instr :: rest) flight :=
      ⟨after, fun _ _ here => by cases here; exact ⟨ordinary, blocked⟩⟩
    obtain ⟨earlier, origin, later, place, kept, count⟩ :=
      exists_source scheduled.transfer scheduled.lowered whole ordinary
    obtain ⟨middle, queue, footprint, next, asked, _, required, tallied, met, emitted⟩ :=
      required_at upheld scheduled.transfer scheduled.lowered place (fun _ _ => False.elim) whole
        count (enters start before) stands
    obtain ⟨ready, _, copied⟩ := emitted kept
    have opcode : origin.opcode = instr.opcode := by
      rw [(List.cons.inj copied).1]
      unfold absorbExports
      split <;> rfl
    refine eq_nil_of_require required ?_ tallied met
    rcases drains with jumps | ⟨forced, _⟩
    · exact .inl (opcode.trans jumps)
    · exact .inr forced
  · intro hands runs
    rw [Program.codeAlong_append_singleton scheduled.found] at runs
    obtain ⟨start, before, after⟩ := runs.split
    obtain ⟨tallied, met⟩ := left_at_end upheld scheduled.transfer scheduled.lowered
      (fun _ _ => False.elim) (enters start before) after
    obtain ⟨trailing, _, _, closes⟩ := transferFrom_of_transfer scheduled.transfer
    have closing : source.is BlockKind.endWithRegs = true := by
      rw [scheduled.same] at hands
      exact hands
    rw [closes closing] at met
    exact eq_nil_of_drained tallied met fun counter busy => get_drainAll _ busy

namespace MessageThenJump

/-- A message. -/
def message : Instr := .immediate .sSendmsg 0

/-- The wait for the message. -/
def waitForMessage : Instr := .immediate .sWaitcnt 49279

/-- A jump to another shader part. -/
def jump : Instr := { opcode := .sSetpcB64 }

/-- A block that sends a message before it hands its registers on. -/
def block : Block := { kind := .endWithRegs, instrs := [message, jump] }

/-- A wait for the message is placed in front of the jump. -/
theorem rewrites : Rewrites { forceWaits := true, maxVisits := 1 } (.ofGeneration .gfx9)
    { blocks := #[block] }
    { blocks := #[{ block with instrs := [message, waitForMessage, jump] }] } :=
  rewrites_single (by decide) (by decide) (by decide)
    (Outcome.eq_ok_of_toOption (by decide +kernel))

end MessageThenJump

open MessageThenJump in
/-- The message has gone out when the jump is issued and when the block ends. -/
theorem drained_behind_message :
    (∀ flight, Runs .gfx9 [] [message, waitForMessage] flight → flight = []) ∧
      ∀ flight, Runs .gfx9 [] [message, waitForMessage, jump] flight → flight = [] := by
  constructor
  · intro flight runs
    refine (drained_at_drain_points (by decide) rfl MessageThenJump.rewrites .start rfl (by decide)
      rfl).1 [message, waitForMessage] jump [] rfl (.inl rfl) runs ?_
    intro counter bound asked
    cases counter <;> cases asked
  · intro flight runs
    exact (drained_at_drain_points (by decide) rfl MessageThenJump.rewrites .start rfl (by decide)
      rfl).2 rfl runs

end InsertWaits

end WaveHazard
