import WaveHazard.Hazard.Effect
import WaveHazard.Machine.Timing

/-! # The state after an instruction is issued

Issuing an operation moves the older ones further back: an entry whose producers on a counter are
all of the event that was issued can allow one more outstanding operation. Where several events
share a counter, or an event completes out of order, the position of the producers is unknown and
their thresholds stay as they are.
-/

namespace WaveHazard.Hazard

open Machine Wait

/-- The requirement after one more operation of `event`: the threshold of every chosen counter on
which the pending events are exactly the one that was issued grows by one. -/
def ageRequirement (generation : Generation) (wait : Requirement) (pending issued : Events)
    (chosen : Counter → Bool) : Requirement :=
  .ofFn fun counter =>
    if chosen counter && pending &&& generation.counted counter == issued then
      (wait.get counter).increment (generation.maxThreshold counter)
    else wait.get counter

namespace Fence

variable (generation : Generation)

/-- The fence with one more access to its memory. -/
def record (fence : Fence) (counters : Counters) (events : Events) : Fence where
  wait := fence.wait.drain counters.holds
  events := fence.events ||| events

/-- The fence after one more operation that does not access its memory. -/
def age (fence : Fence) (counters : Counters) (events : Events) : Fence :=
  if generation.isUnordered fence.events || generation.isUnordered events then fence
  else { fence with
    wait := ageRequirement generation fence.wait fence.events events fun counter =>
      counters.holds counter && fence.wait.isSet counter }

/-- The fence of a kind of memory after an operation: recorded if the operation accesses that
memory in a way others can see, and aged otherwise. -/
def after (fence : Fence) (index : Nat) (counters : Counters) (events : Events) (sync : Sync) :
    Fence :=
  if sync.storage.has index && !sync.semantics.contains Semantics.isPrivate then
    fence.record counters events
  else fence.age generation counters events

end Fence

/-- The entry after one more operation of `event` on the given counters. -/
def Entry.age (generation : Generation) (entry : Entry) (event : Event) (counters : Counters) :
    Entry :=
  if generation.isUnordered entry.events then entry
  else { entry with
    wait := ageRequirement generation entry.wait entry.events (.single event) counters.holds }

namespace State

variable (generation : Generation)

/-- The state in which the fences know of one more operation. -/
def countFences (state : State) (counters : Counters) (events : Events) (sync : Sync) : State :=
  { state with
    fences := state.fences.mapIdx fun index fence =>
      fence.after generation index counters events sync }

/-- The state with one more operation of `event` in flight. While a flat load is outstanding on a
counter its thresholds do not move. -/
def count (state : State) (event : Event) (sync : Sync) : State :=
  let counters := generation.countersOf event
  let state := { state with inFlight := state.inFlight ||| counters }
  let state := state.countFences generation counters (.single event) sync
  if generation.isUnordered (.single event) then state
  else
    let counters := if state.flatLgkm then counters.diff (Counters.single .lgkm) else counters
    let counters := if state.flatVm then counters.diff (Counters.single .vm) else counters
    { state with registers := state.registers.map fun entry => entry.age generation event counters }

/-- The state after a flat load that may return out of order with anything on the load and data
share counters: every pending threshold on these drops to 0. -/
def flatLoad (state : State) (sync : Sync) : State :=
  let counters := Counters.ofList [.lgkm, .vm]
  let state := { state with inFlight := state.inFlight ||| counters }
  let state := state.countFences generation counters (.single .flat) sync
  { state with
    registers := state.registers.map fun entry =>
      { entry with
        wait := entry.wait.drain fun counter =>
          counters.holds counter && entry.counters.holds counter },
    flatLgkm := true,
    flatVm := true }

/-- The state in which the given slots have one more producer. -/
def track (state : State) (slots : List Slot) (entry : Entry) : State :=
  { state with
    registers := slots.foldl (fun registers slot =>
      registers.alter slot fun held => match held with
        | none => some entry
        | some held => some (held.join entry)) state.registers }

/-- The state after an effect. -/
def apply (state : State) : Effect → State
  | .count event sync => state.count generation event sync
  | .flatLoad sync => state.flatLoad generation sync
  | .track slots entry => state.track slots entry
  | .scalarStore => { state with scalarStore := true }

/-- The state after all the given effects in order. -/
def applyAll (state : State) (effects : List Effect) : State :=
  effects.foldl (apply generation) state

/-- The state after the asynchronous effects of an instruction. -/
def issue (state : State) (instr : Instr) : Except Fault State :=
  (Effect.ofInstr generation instr).map (state.applyAll generation)

/-- The state in which arithmetic producers are one instruction further back, or forgotten
altogether. -/
def ageArithmetic (state : State) (isValu isTrans forget : Bool) (cycles : Int) : State :=
  { state with
    registers := state.registers.retain fun _ entry =>
      let entry :=
        if forget then entry.dropArithmetic
        else
          let entry := { entry with delay := entry.delay.age isValu isTrans cycles }
          if entry.delay.isEmpty then entry.dropArithmetic else entry
      entry.unlessDone }

/-- Whether arithmetic dependencies are resolved by the time the instruction has been issued. -/
def forgetsArithmetic (instr : Instr) : Bool :=
  instr.isExport || instr.isDataShare || instr.isVectorMemory || instr.isFlatLike

/-- The state after the arithmetic effects of an instruction, from GFX11 on. -/
def issueArithmetic (target : Target) (state : State) (instr : Instr) : Except Fault State := do
  let effects ← Effect.arithmetic target.generation instr instr.latency
  return (state.applyAll target.generation effects).ageArithmetic
    (instr.isVector && !instr.isMatrix) instr.isTrans (forgetsArithmetic instr)
    (instr.issueCycles target)

/-- The state at the entry of a program: accesses to local memory and loads of arguments that an
earlier shader part issued. -/
def atEntry (state : State) (program : Program) : Except Fault State := do
  let state := if program.pendingLocalAccess then
      state.countFences generation (generation.countersOf .lds) (.single .lds)
        (.ofStorage .shared)
    else state
  program.pendingArguments.foldlM (fun state definition => do
    let effect ← Effect.define generation definition .vmem ∅ 0
    return (state.count generation .vmem {}).apply generation effect) state

end State

end WaveHazard.Hazard
