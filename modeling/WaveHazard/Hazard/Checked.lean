import WaveHazard.Hazard.Demand

/-! # Operations on unchecked input

The operations on hazard states take a single event and slots of the register file, and are total.
Here are their forms for sets of events and registers that come from outside, which fail where the
input does not stand for one.
-/

namespace WaveHazard.Hazard

open Machine Wait

namespace State

variable (generation : Generation)

/-- Count one more operation of the only event of a set. -/
def countChecked (state : State) (events : Events) (sync : Sync) : Except Fault State :=
  events.only.map fun event => state.count generation event sync

/-- Record a flat load, which is out of order only before GFX10. -/
def flatLoadChecked (state : State) (sync : Sync) : Except Fault State :=
  if generation < .gfx10 then .ok (state.flatLoad generation sync) else .error .orderedFlatLoad

/-- The registers of a class from `register` on wait for the only event of a set. -/
def trackChecked (state : State) (register : Register) (cls : RegisterClass) (events : Events)
    (onRead : Bool) (loads : LoadKind) (cycles : Int) (forceLinear : Bool) :
    Except Fault State := do
  let event ← events.only
  let effect ← Effect.trackRegister generation register cls event onRead loads cycles forceLinear
  return state.apply generation effect

/-- The registers an operand reads stay locked until the only event of a set completes. An operand
without registers needs no event. -/
def lockChecked (state : State) (operand : Operand) (events : Events) (loads : LoadKind) :
    Except Fault State :=
  match operand with
  | .reg register cls => state.trackChecked generation register cls events false loads 0 false
  | _ => .ok state

/-- The registers of a definition wait for the only event of a set. -/
def defineChecked (state : State) (definition : Definition) (events : Events) (loads : LoadKind)
    (cycles : Int) : Except Fault State := do
  let event ← events.only
  let effect ← Effect.define generation definition event loads cycles
  return state.apply generation effect

/-- The queue with the waits that guard the registers of an instruction. -/
def hazardsChecked (setting : Setting) (state : State) (queue : Queue) (instr : Instr) :
    Except Fault Queue := do
  return state.registerHazards setting instr (← instr.footprint) queue

end State

/-- The counters that count the only event of a set. -/
def countersOfChecked (generation : Generation) (events : Events) : Except Fault Counters :=
  events.only.map generation.countersOf

end WaveHazard.Hazard
