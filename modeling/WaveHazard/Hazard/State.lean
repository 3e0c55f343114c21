import WaveHazard.Hazard.Entry
import WaveHazard.Index.SlotMap
import WaveHazard.Machine.Sync
import WaveHazard.Machine.Target
import WaveHazard.Program.Basic

/-! # The hazard state

What is in flight at one point of a program: the counters that may be above zero, the entry of
every register slot with pending producers, and for every kind of memory the wait that completes
the accesses to it.

Where control flow meets, states are joined. A join takes over everything but the register
entries of the other visibility: an entry that is visible along the logical control flow only does
not pass a linear edge, and the other way around.
-/

namespace WaveHazard.Hazard

open Machine Wait Index

/-- What the analysis is run for. -/
structure Setting where
  target : Target
  /-- Wait for everything outstanding before every instruction. -/
  forceWaits : Bool := false
  /-- The program loads buffers or global memory through scalar memory. -/
  scalarLoads : Bool := false
deriving DecidableEq, Inhabited

/-- The generation of the target. -/
def Setting.generation (setting : Setting) : Generation := setting.target.generation

/-- What completes the accesses to one kind of memory. -/
@[ext] structure Fence where
  wait : Requirement := ∅
  events : Events := ∅
deriving DecidableEq, Inhabited

namespace Fence

/-- The accesses of both fences. -/
def join (left right : Fence) : Fence where
  wait := left.wait.combine right.wait
  events := left.events ||| right.events

/-- Whether joining with the second fence changes the first one. -/
def grows (left right : Fence) : Bool :=
  left.wait.tightens right.wait || !(right.events.diff left.events).isEmpty

/-- Whether there are no accesses to complete. -/
def isEmpty (fence : Fence) : Bool := fence.wait.isEmpty && fence.events.isEmpty

end Fence

/-- What is in flight at one point of a program. -/
@[ext] structure State where
  /-- The counters that may have operations in flight. -/
  inFlight : Counters := ∅
  /-- A flat load is outstanding on the data share counter, so waits for it must drain it. -/
  flatLgkm : Bool := false
  /-- A flat load is outstanding on the load counter, so waits for it must drain it. -/
  flatVm : Bool := false
  /-- From GFX10 on: a scalar store that a later scalar load may alias. -/
  scalarStore : Bool := false
  fences : Vector Fence storageCount := Vector.replicate storageCount {}
  registers : SlotMap slotCount Entry := ∅
deriving DecidableEq, Inhabited

namespace State

instance : EmptyCollection State := ⟨{}⟩

/-- The accesses to a kind of memory that are to complete. -/
def fence (state : State) (index : Fin storageCount) : Fence := state.fences[index]

/-- What a slot holds after a join: an entry of the right visibility is taken over. -/
def joinSlot (logical : Bool) (mine theirs : Option Entry) : Option Entry :=
  match theirs with
  | none => mine
  | some entry =>
      if entry.logical = logical then
        match mine with
        | none => some entry
        | some held => some (held.join entry)
      else mine

/-- Whether a join changes what a slot holds. -/
def slotGrows (logical : Bool) (mine theirs : Option Entry) : Bool :=
  match theirs with
  | none => false
  | some entry =>
      entry.logical == logical && match mine with
        | none => true
        | some held => held.grows entry

/-- The state with that of a predecessor merged into it. Of the register entries only those of the
given visibility are taken over. -/
def join (state other : State) (logical : Bool) : State where
  inFlight := state.inFlight ||| other.inFlight
  flatLgkm := state.flatLgkm || other.flatLgkm
  flatVm := state.flatVm || other.flatVm
  scalarStore := state.scalarStore || other.scalarStore
  fences := Vector.zipWith Fence.join state.fences other.fences
  registers := .ofFn fun slot =>
    joinSlot logical (state.registers.get? slot) (other.registers.get? slot)

/-- Whether merging a predecessor changes the state. -/
def grows (state other : State) (logical : Bool) : Bool :=
  (other.flatLgkm && !state.flatLgkm)
    || (other.flatVm && !state.flatVm)
    || (other.scalarStore && !state.scalarStore)
    || !(other.inFlight.diff state.inFlight).isEmpty
    || (List.finRange storageCount).any (fun index =>
        (state.fence index).grows (other.fence index))
    || (List.finRange slotCount).any (fun slot =>
        slotGrows logical (state.registers.get? slot) (other.registers.get? slot))

/-- The kinds of memory with accesses to complete. -/
def openFences (state : State) : List (Fin storageCount × Fence) :=
  (List.finRange storageCount).filterMap fun index =>
    if (state.fence index).isEmpty then none else some (index, state.fence index)

/-- The state in text. -/
def text (state : State) : String :=
  let flat := if state.flatLgkm || state.flatVm then
      s!" pending flat: lgkm={state.flatLgkm} vm={state.flatVm}"
    else ""
  let store := if state.scalarStore then " pending s_buffer_store" else ""
  let registers := state.registers.toList.map fun (slot, entry) =>
    "  " ++ (Slot.register slot).text ++ ": " ++ entry.text ++ "\n"
  let fences := state.openFences.map fun (index, fence) =>
    let storage : Storage := .flag index
    s!"  barrier {storage.describe}: {fence.wait.text} {fence.events.describe}\n"
  "nonzero: " ++ state.inFlight.describe ++ flat ++ store ++ "\n"
    ++ String.join registers ++ String.join fences

end State

end WaveHazard.Hazard
