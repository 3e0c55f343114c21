import WaveHazard.Hazard.Clause
import WaveHazard.Hazard.Demand
import WaveHazard.Wait.Lowering

/-! # The transfer function of a block

A block is run once over a hazard state. The run yields the state at the end of the block and a
schedule: the instructions that remain and, in front of each, the waits and delays that are due.
The analysis uses the state, the placement of waits uses the schedule, and both come from the one
function `Block.transfer`.

Waits, delays and barriers of the block itself are absorbed: what they ask for joins the queue.
The waits for a clause are pulled in front of its first instruction.
-/

namespace WaveHazard.Hazard

open Machine Wait

/-- An instruction and what is due in front of it. -/
structure Placement where
  queue : Queue
  instr : Instr
deriving DecidableEq, Inhabited

/-- The instructions of a block with what is due in front of each, and what is due at the end. -/
structure Schedule where
  placed : List Placement := []
  trailing : Queue := ∅
deriving DecidableEq, Inhabited

variable (setting : Setting)

/-- Whether an instruction is replaced by the waits it asks for. -/
def isAbsorbed (generation : Generation) (instr : Instr) : Bool :=
  (instr.wait? generation).isSome || instr.isBarrier || instr.opcode == .sDelayAlu

/-- The queue with the wait and the delay that an instruction of the input asks for. -/
def absorb (state : State) (queue : Queue) (instr : Instr) : Queue where
  wait := match instr.wait? setting.generation with
    | some wait => queue.wait.combine (state.dropIdle wait)
    | none => queue.wait
  delay := match instr.delay? with
    | some delay => queue.delay.combine delay
    | none => queue.delay

/-- Collect the waits of the instructions that form a clause with `first`. Also yields how many
instructions joined it. -/
def pullClause (first : Instr) :
    State → Queue → Option Clause → List Instr → Except Fault (State × Queue × Nat)
  | state, queue, _, [] => .ok (state, queue, 0)
  | state, queue, clause, next :: rest =>
      if first.sharesClause next then do
        let clause ← match clause with
          | some clause => pure clause
          | none => Clause.ofFirst first
        match ← clause.extend next with
        | none => return (state, queue, 0)
        | some clause =>
            let (state, queue) ← state.demand setting queue next next.sync
            let (state, queue, joined) ← pullClause first state queue (some clause) rest
            return (state, queue, joined + 1)
      else .ok (state, queue, 0)

/-- Split a queue for an instruction that can wait for exports on its own: what remains in the
queue, and the instruction with that wait. -/
def absorbExports (queue : Queue) (instr : Instr) : Placement :=
  match instr.payload, queue.wait.exp with
  | .interp waitExp, some n =>
      { queue := { queue with wait := queue.wait.set .exp none },
        instr := { instr with payload := .interp (min waitExp n) } }
  | _, _ => { queue, instr }

/-- Issue an instruction: its arithmetic results, where they matter, and its asynchronous
effects. -/
def issueAll (state : State) (instr : Instr) : Except Fault State := do
  let state ← if .gfx11 ≤ setting.generation then
      state.issueArithmetic setting.target instr
    else pure state
  state.issue setting.generation instr

/-- Run a list of instructions. `covered` is the number of instructions from here on whose waits
have already been pulled to the front of their clause. Yields the state after the last one, what
is still queued, and the placements. -/
def transferFrom : Nat → State → Queue → List Instr →
    Except Fault (State × Queue × List Placement)
  | _, state, queue, [] => .ok (state, queue, [])
  | covered, state, queue, instr :: rest => do
      let queue := absorb setting state queue instr
      let (state, queue) ← state.demand setting queue instr instr.sync
      let (state, queue, covered) ←
        if covered = 0 ∨ !queue.wait.isEmpty then do
          let (state, queue, joined) ← pullClause setting instr state queue none rest
          pure (state, queue, joined + 1)
        else pure (state, queue, covered)
      let state ← issueAll setting state instr
      if isAbsorbed setting.generation instr then
        transferFrom (covered - 1) state queue rest
      else
        let due : Queue := { wait := state.afterIssue setting instr }
        let (final, trailing, placed) ← transferFrom (covered - 1) state due rest
        return (final, trailing, absorbExports queue instr :: placed)

end WaveHazard.Hazard

namespace WaveHazard.Block

open Hazard

/-- Run a block over a state: the state at its end and the schedule of its instructions. A block
that hands its registers on drains everything at its end. -/
def transfer (setting : Setting) (block : Block) (state : State) :
    Except Fault (State × Schedule) := do
  let (state, queue, placed) ← transferFrom setting 0 state ∅ block.instrs
  let trailing := if block.is BlockKind.endWithRegs then
      { queue with wait := state.drainAll queue.wait }
    else queue
  return (state, { placed, trailing })

end WaveHazard.Block

namespace WaveHazard.Hazard

open Machine Wait

/-- A threshold that could not be encoded and was lowered to 0. -/
structure Clamped where
  counter : Counter
  threshold : Nat
  largest : Nat
deriving DecidableEq, Inhabited

/-- The instructions of a lowering, or the fault that ended it, and the thresholds that had to be
lowered on the way. -/
structure Lowered where
  clamped : List Clamped := []
  result : Except Fault (List Instr) := .ok []

namespace Lowered

/-- One lowering after the other; a fault in the first one ends both. -/
def append (first second : Lowered) : Lowered :=
  match first.result with
  | .error _ => first
  | .ok instrs =>
      { clamped := first.clamped ++ second.clamped,
        result := second.result.map (instrs ++ ·) }

end Lowered

/-- The instructions of a queue: a wait and a delay, where there is something to wait for. -/
def Queue.lower (generation : Generation) (queue : Queue) : Lowered :=
  let wait : Lowered :=
    if queue.wait.isEmpty then {}
    else
      { clamped := (queue.wait.excess generation).map fun (counter, threshold) =>
          { counter, threshold, largest := generation.maxThreshold counter },
        result := queue.wait.lower generation }
  let delay : Lowered :=
    if queue.delay.isEmpty then {} else { result := queue.delay.lower.map ([·]) }
  wait.append delay

/-- The instructions of a schedule. -/
def Schedule.lower (generation : Generation) (schedule : Schedule) : Lowered :=
  schedule.placed.foldr (fun placement rest =>
    ((placement.queue.lower generation).append { result := .ok [placement.instr] }).append rest)
    (schedule.trailing.lower generation)

end WaveHazard.Hazard
