import WaveHazard.Pass.CoalesceDelays
import WaveHazard.Pass.InsertWaits
import WaveHazard.Pass.Registry
import WaveHazard.Pass.WellFormed

/-! # The pipeline

The passes that come with the library, the aliases for them, and the function most users need:
validate a program, insert its waits and delays, and coalesce the delays.
-/

namespace WaveHazard

open Machine

namespace Registry

/-- The passes of the library in the order in which they are registered. -/
def standardPasses : List (Pass Unit) :=
  [WellFormed.pass, InsertWaits.pass, CoalesceDelays.pass]

/-- The aliases of the library in the order in which they are added. -/
def standardAliases : List (String × List String) :=
  [("validate", ["well-formed"]),
   ("waits", ["insert-waits", "coalesce-delay-alu"]),
   ("all", ["validate", "waits"]),
   ("none", [])]

/-- Register the passes of the library and add its aliases. -/
def addStandard : Call Unit := do
  standardPasses.forM register
  standardAliases.forM fun (name, members) => addAlias name members

/-- The registry with the passes and aliases of the library. -/
def standard : Walk Unit Registry := do
  let (result, draft) := addStandard.run { journal := (← get).journal }
  modify fun session => { session with journal := draft.journal }
  Walk.ofCheck (result.map fun _ => draft.registry)

end Registry

/-- Validate the program of the session, insert waits and delays, and coalesce the delays. -/
def insertWaitStates (target : Target) (options : List String) : Walk Unit Unit := do
  let registry ← Registry.standard
  let size := (← get).program.size
  Walk.log .debug fun _ =>
    s!"Inserting wait states for {size} blocks on {target.generation.text}"
  registry.execute target options ["all"] []

end WaveHazard
