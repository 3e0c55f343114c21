import WaveHazard.Hazard.State
import WaveHazard.Machine.Text

/-! # Asynchronous effects of an instruction

What issuing an instruction sets in motion does not depend on the state: it is a list of effects
that is read off the instruction and the generation. Operations are counted, destinations wait for
them, and registers that are read late stay locked.

Reading the list is also where malformed instructions show: an export without its payload or an
operand, a load without a destination, a register outside of the file.
-/

namespace WaveHazard.Hazard

open Machine Wait

/-- Something an instruction sets in motion. -/
inductive Effect where
  /-- One more operation of an event is in flight. -/
  | count (event : Event) (sync : Sync)
  /-- A flat load that returns out of order with everything on its counters. -/
  | flatLoad (sync : Sync)
  /-- The register slots wait for a new producer. -/
  | track (slots : List Slot) (entry : Entry)
  /-- A scalar store that a later scalar load may alias. -/
  | scalarStore
deriving DecidableEq, Inhabited

/-- The kind of vector memory access of an instruction, and none for anything that is not counted
as a load. Image instructions take the sampler as their second operand. -/
def loadKind (instr : Instr) : LoadKind :=
  if instr.opcode = .imageBvh64IntersectRay then .bvh
  else if instr.isImage
      && (instr.operands[1]?.bind Operand.class?) == some (RegisterClass.scalar 4) then .sampler
  else if instr.isVectorMemory || instr.encoding == .global || instr.encoding == .scratch then
    .plain
  else ∅

/-- The event of a vector memory access of the given kind. -/
def loadEvent (generation : Generation) (instr : Instr) (kind : LoadKind) : Event :=
  if instr.definitions.isEmpty ∧ .gfx10 ≤ generation then .vmemStore
  else if .gfx12 ≤ generation ∧ kind ≠ LoadKind.plain then
    if kind = LoadKind.bvh then .vmemBvh else .vmemSample
  else .vmem

/-- The entry of a register whose newest producer is an operation of `event`. For arithmetic
producers `cycles` is their latency. -/
def Entry.ofEvent (generation : Generation) (event : Event) (logical onRead : Bool)
    (loads : LoadKind) (cycles : Int) : Entry :=
  let counters := generation.countersOf event
  { wait := .drain ∅ counters.holds,
    delay := match event with
      | .valu => { valuInstrs := 0, valuCycles := cycles }
      | .trans => { transInstrs := 0, transCycles := cycles }
      | .salu => { saluCycles := cycles }
      | _ => ∅,
    events := .single event,
    counters,
    onRead,
    logical,
    loads := if counters.holds .vm then loads else ∅ }

namespace Effect

variable (generation : Generation)

/-- The registers of a class from `register` on wait for an operation of `event`. -/
def trackRegister (register : Register) (cls : RegisterClass) (event : Event) (onRead : Bool)
    (loads : LoadKind) (cycles : Int) (forceLinear : Bool) : Except Fault Effect := do
  let slots ← sequenceSlots (slotsFrom register cls.size)
  return .track slots
    (.ofEvent generation event (!cls.isLinear && !forceLinear) onRead loads cycles)

/-- The registers an operand reads must not be overwritten until `event` completes. -/
def lock (operand : Operand) (event : Event) (loads : LoadKind) : Except Fault (List Effect) :=
  match operand with
  | .reg register cls => do
      return [← trackRegister generation register cls event false loads 0 false]
  | _ => .ok []

/-- Whether definitions by an event follow the linear control flow whatever their class is. From
GFX11 on the unwritten lanes of a load cannot be written before it completes, and arithmetic
dependencies are not checked lane by lane. -/
def followsLinear (event : Event) : Bool :=
  .gfx11 ≤ generation && match event with
    | .lds | .gds | .vmem | .flat | .valu | .trans | .salu => true
    | _ => false

/-- The registers of a definition hold garbage until `event` completes. -/
def define (definition : Definition) (event : Event) (loads : LoadKind) (cycles : Int) :
    Except Fault Effect :=
  trackRegister generation definition.register definition.cls event true loads cycles
    (followsLinear generation event)

/-- The first definition of an instruction, if it has one, waits for `event`. -/
def defineFirst (instr : Instr) (event : Event) (loads : LoadKind) :
    Except Fault (List Effect) :=
  match instr.definitions with
  | [] => .ok []
  | definition :: _ => do return [← define generation definition event loads 0]

/-- The mask of active lanes as an operand. -/
def execOperand : Operand := .reg .exec (.scalar 2)

/-- The event of an export to a target. -/
def exportEvent (target : Nat) : Event :=
  if target ≤ 9 then .expMrtNull else if target ≤ 15 then .expPos else .expParam

/-- The operands an export reads: one for every enabled channel, or one for two channels when it
is compressed. -/
def exportOperands (enabledMask : Nat) (compressed : Bool) : List Nat :=
  ((List.range 4).filter enabledMask.testBit).map fun channel =>
    if compressed then channel / 2 else channel

/-- The effects of an export: the exported registers and the mask of active lanes cannot be
overwritten until the export has read them. -/
def ofExport (instr : Instr) : Except Fault (List Effect) :=
  match instr.payload with
  | .exportTo target enabledMask compressed _ => do
      let event := exportEvent target
      let locks ← (exportOperands enabledMask compressed).mapM fun position =>
        match instr.operands[position]? with
        | some operand => lock generation operand event ∅
        | none => .error (.exportWithoutOperand position instr.text)
      let lanes ← lock generation execOperand event ∅
      return .count event {} :: locks.flatten ++ lanes
  | _ => .error (.exportWithoutPayload instr.text)

/-- The effects of a flat access. -/
def ofFlat (instr : Instr) : Except Fault (List Effect) := do
  let issued := if generation < .gfx10 ∧ !instr.definitions.isEmpty then
      Effect.flatLoad instr.sync
    else .count .flat instr.sync
  return issued :: (← defineFirst generation instr .flat ∅)

/-- The effects of a scalar memory access. -/
def ofScalarMemory (instr : Instr) : Except Fault (List Effect) := do
  let store := if instr.definitions.isEmpty ∧ .gfx10 ≤ generation ∧ !instr.sync.canReorder then
      [Effect.scalarStore]
    else []
  return .count .smem instr.sync :: (← defineFirst generation instr .smem ∅) ++ store

/-- The effects of an access to local or global data share. Global data share reads its registers
late, so they stay locked. -/
def ofDataShare (instr : Instr) : Except Fault (List Effect) :=
  if instr.isGlobalDataShare then do
    let result ← defineFirst generation instr .gds ∅
    let locks ← (instr.operands ++ [execOperand]).mapM fun operand =>
      lock generation operand .gdsGprLock ∅
    return [.count .gds instr.sync, .count .gdsGprLock {}] ++ result ++ locks.flatten
  else do
    return .count .lds instr.sync :: (← defineFirst generation instr .lds ∅)

/-- The effects of a direct load from local memory. -/
def ofDirectLoad (instr : Instr) : Except Fault (List Effect) :=
  if instr.definitions.isEmpty then .error (.directLoadWithoutDestination instr.text)
  else do return .count .ldsdir instr.sync :: (← defineFirst generation instr .ldsdir ∅)

/-- The store data of an access. -/
def storeData? (instr : Instr) : Option Operand :=
  if instr.isImage then instr.operands[2]?.filter (!·.isUndef)
  else if instr.operands.length = 4 then instr.operands[3]?
  else none

/-- The effects of store data that is read after issue, which only GFX6 does. -/
def lateLock (instr : Instr) : Except Fault (List Effect) :=
  match if generation = .gfx6 then storeData? instr else none with
  | some operand => do
      return .count .vmemGprLock {} :: (← lock generation operand .vmemGprLock ∅)
  | none => .ok []

/-- The effects of a vector memory access. -/
def ofVectorMemory (instr : Instr) : Except Fault (List Effect) := do
  let kind := loadKind instr
  let event := loadEvent generation instr kind
  let result ← defineFirst generation instr event kind
  let late ← lateLock generation instr
  return .count event instr.sync :: result ++ late

/-- The effects of a message with a reply. -/
def ofMessageReply (instr : Instr) : Except Fault (List Effect) :=
  if instr.definitions.isEmpty then .error (.messageWithoutDestination instr.text)
  else do return .count .sendmsg {} :: (← defineFirst generation instr .sendmsg ∅)

/-- The asynchronous effects of an instruction: memory, exports and messages. -/
def ofInstr (instr : Instr) : Except Fault (List Effect) :=
  match instr.encoding with
  | .exp => ofExport generation instr
  | .flat => ofFlat generation instr
  | .smem => ofScalarMemory generation instr
  | .ds => ofDataShare generation instr
  | .ldsdir => ofDirectLoad generation instr
  | .mubuf | .mtbuf | .mimg | .global | .scratch => ofVectorMemory generation instr
  | .sopp =>
      if instr.opcode = .sSendmsg ∨ instr.opcode = .sSendmsghalt then .ok [.count .sendmsg {}]
      else .ok []
  | .sop1 =>
      if instr.opcode = .sSendmsgRtnB32 ∨ instr.opcode = .sSendmsgRtnB64 then
        ofMessageReply generation instr
      else .ok []
  | _ => .ok []

/-- The arithmetic event of an instruction. -/
def arithmeticEvent? (instr : Instr) : Option Event :=
  if instr.isTrans then some .trans
  else if instr.isVector then some .valu
  else if instr.isScalar then some .salu
  else none

/-- The arithmetic results an instruction produces after its latency. -/
def arithmetic (instr : Instr) (latency : Int) : Except Fault (List Effect) :=
  match arithmeticEvent? instr with
  | none => .ok []
  | some event => instr.definitions.mapM fun definition =>
      define generation definition event ∅ latency

end Effect

end WaveHazard.Hazard
