import WaveHazard.Hazard.Issue

/-! # What an instruction has to wait for

Before an instruction is issued, the producers of its registers have to complete, and so do the
accesses it is ordered after. `State.demand` collects these waits into a queue and moves the state
past them; `State.afterIssue` collects those that become due once the instruction has been issued.
-/

namespace WaveHazard.Hazard

open Machine Wait

/-- The waits and delays that are due in front of the next instruction. -/
@[ext] structure Queue where
  wait : Requirement := ∅
  delay : Delay := ∅
deriving DecidableEq, Inhabited

namespace Queue

instance : EmptyCollection Queue := ⟨{}⟩

/-- Whether there is nothing to wait for. -/
def isEmpty (queue : Queue) : Bool := queue.wait.isEmpty && queue.delay.isEmpty

end Queue

/-- For an ordered count, whether it is the form that releases rather than the one that acquires:
the lowest bit of its combined offset. -/
def orderedCountReleases? (instr : Instr) : Option Bool :=
  match instr.payload with
  | .dataShare _ _ offset0 offset1 =>
      if instr.opcode = .dsOrderedCount then some (offset1 % 2 == 1 || offset0 / 256 % 2 == 1)
      else none
  | _ => none

/-- Whether the instruction leaves the ordered section of an overlapped pixel shader. -/
def leavesOrderedSection (generation : Generation) (instr : Instr) : Bool :=
  if .gfx11 ≤ generation then
    match instr.payload with
    | .exportTo _ _ _ done => done
    | _ => false
  else instr.opcode == .sSendmsg && instr.imm? == some orderedSectionDone

namespace State

variable (setting : Setting)

/-- The requirement without the bounds on counters that have nothing in flight. -/
def dropIdle (state : State) (wait : Requirement) : Requirement :=
  wait.only state.inFlight.holds

/-- The requirement that every outstanding counter drains, on top of `wait`. -/
def drainAll (state : State) (wait : Requirement) : Requirement :=
  wait.drain state.inFlight.holds

/-- What the read of a register with a pending entry adds to the queue. -/
def readHazard (instr : Instr) (queue : Queue) (entry : Entry) : Queue :=
  if entry.onRead then
    { wait := queue.wait.combine entry.wait,
      delay := if instr.isVector || instr.isScalar then queue.delay.combine entry.delay
        else queue.delay }
  else queue

/-- The counter on which a write by the instruction stays in order behind the pending producers of
an entry, because they are accesses of the same kind. -/
def inOrderBehind (generation : Generation) (instr : Instr) (entry : Entry) (counter : Counter) :
    Bool :=
  let kind := loadKind instr
  let event := loadEvent generation instr kind
  let vectorMemory := !kind.isEmpty
    && (generation.countersOf event).toList.head? == some counter
    && entry.events &&& generation.counted counter == Events.single event
    && (counter != .vm || entry.loads == kind)
  let share := if instr.isGlobalDataShare then Event.gds else .lds
  let dataShare := instr.isDataShare && counter == .lgkm
    && entry.events &&& generation.counted .lgkm == Events.single share
  vectorMemory || dataShare

/-- What the write of a register with a pending entry adds to the queue. -/
def writeHazard (instr : Instr) (queue : Queue) (entry : Entry) : Queue :=
  { queue with
    wait := queue.wait.combine
      (entry.wait.only fun counter => !inOrderBehind setting.generation instr entry counter) }

/-- The queue with the waits that guard the registers of an instruction. -/
def registerHazards (state : State) (instr : Instr) (footprint : Footprint) (queue : Queue) :
    Queue :=
  let step (hazard : Queue → Entry → Queue) (queue : Queue) (slot : Slot) : Queue :=
    match state.registers.get? slot with
    | none => queue
    | some entry => hazard queue entry
  let queue := footprint.reads.foldl (step (readHazard instr)) queue
  footprint.writes.foldl (step (writeHazard setting instr)) queue

/-- The widest scope that is ordered without any wait: a workgroup of a single wave is. -/
def waveScope (target : Target) : Scope :=
  if target.workgroupSize ≤ target.waveSize then .workgroup else .subgroup

/-- The events of a fence that a synchronization at a scope has to wait for. Local memory is private
to the workgroup, and outside of workgroup-processor mode the first cache keeps the memory
operations of a workgroup in order. -/
def visibleEvents (target : Target) (scope : Scope) (events : Events) : Events :=
  let events := if scope.narrower .workgroup ≤ waveScope target then
      events.diff (Events.single .lds)
    else events
  if !target.wgpMode && scope ≤ .workgroup then
    events.diff (Events.ofList [.vmem, .vmemStore, .smem])
  else events

/-- The requirement with the waits of the memory that `sync` orders, if it has one of the given
semantics at a scope wider than a wave. -/
def fenceWait (state : State) (wait : Requirement) (sync : Sync) (semantics : Semantics) :
    Requirement :=
  if !sync.semantics.intersects semantics || sync.scope ≤ waveScope setting.target then wait
  else sync.storage.indices.foldl (fun wait index =>
    let fence := state.fence index
    if (visibleEvents setting.target sync.scope fence.events).isEmpty then wait
    else wait.combine fence.wait) wait

/-- The fence after a wait that has been satisfied. A flat access is forgotten once neither of its
counters is pending. -/
def clearFence (wait : Requirement) (fence : Fence) : Fence :=
  let done (counter : Counter) : Bool :=
    fence.wait.isSet counter && (wait.get counter).covers (fence.wait.get counter)
  let remaining := fence.wait.only fun counter => !done counter
  let events := (Counter.all.filter done).foldl (fun events counter =>
    events &&& ((setting.generation.counted counter).complement ||| Events.single .flat))
    fence.events
  { wait := remaining,
    events := if remaining.isSet .vm || remaining.isSet .lgkm then events
      else events.diff (Events.single .flat) }

/-- The entry after a wait and a delay that have been satisfied. -/
def clearEntry (queue : Queue) (entry : Entry) : Option Entry :=
  let entry := Counter.all.foldl (fun entry counter =>
    if (queue.wait.get counter).covers (entry.wait.get counter) then
      entry.dropCounter counter (setting.generation.counted counter)
    else entry) entry
  let delay := { entry.delay with
    valuInstrs := if queue.delay.valuInstrs ≤ entry.delay.valuInstrs then Delay.valuNone
      else entry.delay.valuInstrs,
    transInstrs := if queue.delay.transInstrs ≤ entry.delay.transInstrs then Delay.transNone
      else entry.delay.transInstrs }.settle
  let entry := { entry with delay }
  (if delay.isEmpty then entry.dropArithmetic else entry).unlessDone

/-- The state past a wait and a delay. -/
def pass (state : State) (queue : Queue) : State :=
  let state := { state with
    inFlight := (Counter.all.filter fun counter => queue.wait.get counter == some 0).foldl
      (fun inFlight counter => inFlight.diff (Counters.single counter)) state.inFlight,
    fences := state.fences.map (clearFence setting queue.wait) }
  let state := if .gfx11 ≤ setting.generation then
      state.ageArithmetic false false false queue.delay.maxCycles
    else state
  { state with registers := state.registers.retain fun _ => clearEntry setting queue }

/-- The counters that have to drain before the ordered section of an overlapped pixel shader is
left: its accesses must have reached the shared cache by then. -/
def orderedSectionCounters (state : State) (counter : Counter) : Bool :=
  state.inFlight.holds counter && match counter with
    | .vm | .vs => true
    | .lgkm => setting.scalarLoads
    | _ => false

/-- Whether the instruction is a scalar load that may read stale data because of a scalar store
before it. -/
def readsStaleScalar (state : State) (instr : Instr) : Bool :=
  setting.target.errata.scalarStoreLoad && .gfx10 ≤ setting.generation && instr.isScalarMemory
    && state.scalarStore && !instr.definitions.isEmpty && !instr.sync.canReorder

/-- The waits an instruction needs on its own, and the queued delay with those of its operands. -/
def needs (state : State) (instr : Instr) (footprint : Footprint) (sync : Sync)
    (delay : Delay) : Queue :=
  -- Everything drains before a jump to another shader part.
  let wait := if instr.opcode = .sSetpcB64 ∨ setting.forceWaits then state.drainAll ∅ else ∅
  let wait := if setting.target.errata.overlappedWaves
      && leavesOrderedSection setting.generation instr then
      wait.drain (state.orderedSectionCounters setting)
    else wait
  let queue := state.registerHazards setting instr footprint { wait, delay }
  let wait := queue.wait
  -- Scalar stores complete before their cache is written back.
  let wait := if instr.opcode = .sDcacheWb || state.readsStaleScalar setting instr then
      wait.set .lgkm (some 0)
    else wait
  let wait := if orderedCountReleases? instr = some true then
      wait.combine (state.fence Storage.gdsIndex).wait
    else wait
  let wait := if instr.opcode = .pBarrier then
      state.fenceWait setting wait instr.sync Semantics.acquireRelease
    else state.fenceWait setting wait sync Semantics.release
  { wait := state.dropIdle wait, delay := queue.delay }

/-- The waits of the queue where outstanding flat loads force their counters to drain. -/
def flatWait (state : State) (wait : Requirement) : Requirement :=
  .ofFn fun counter =>
    let drains := match counter with
      | .vm => state.flatVm
      | .lgkm => state.flatLgkm
      | _ => false
    if drains && wait.isSet counter then some 0 else wait.get counter

/-- Add the waits an instruction needs before it is issued to the queue, and move the state past
everything in the queue. -/
def require (state : State) (queue : Queue) (instr : Instr) (footprint : Footprint)
    (sync : Sync) : State × Queue :=
  let needed := state.needs setting instr footprint sync queue.delay
  let queue : Queue := { wait := queue.wait.combine needed.wait, delay := needed.delay }
  let (state, queue) :=
    if queue.isEmpty then (state, queue)
    else
      let queue := { queue with wait := state.flatWait queue.wait }
      (state.pass setting queue, queue)
  let drainsVm := queue.wait.vm == some 0
  let drainsLgkm := queue.wait.lgkm == some 0
  ({ state with
      flatVm := state.flatVm && !drainsVm,
      flatLgkm := state.flatLgkm && !drainsLgkm,
      scalarStore := state.scalarStore && !drainsLgkm },
    queue)

/-- As `State.require`, for an instruction whose registers may lie outside of the file. -/
def demand (state : State) (queue : Queue) (instr : Instr) (sync : Sync) :
    Except Fault (State × Queue) := do
  return state.require setting queue instr (← instr.footprint) sync

/-- The waits that become due once an instruction has been issued: those of acquire semantics and
of the acquiring form of an ordered count. -/
def afterIssue (state : State) (instr : Instr) : Requirement :=
  let wait := state.fenceWait setting ∅ instr.sync Semantics.acquire
  let wait := if orderedCountReleases? instr = some false then
      wait.combine (state.fence Storage.gdsIndex).wait
    else wait
  state.dropIdle wait

end State

end WaveHazard.Hazard
