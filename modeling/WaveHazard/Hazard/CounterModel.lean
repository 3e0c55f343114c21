import WaveHazard.Hazard.Event
import WaveHazard.Wait.Packed

/-! # The counter model

Which events each counter counts and which events complete out of order, generation by generation.
-/

namespace WaveHazard.Machine.Generation

open WaveHazard.Wait WaveHazard.Hazard

/-- The events that are counted by a counter. -/
def counted (generation : Generation) : Counter → Events
  | .exp => .ofList [.expPos, .expParam, .expMrtNull, .gdsGprLock, .vmemGprLock, .ldsdir]
  | .lgkm =>
      if .gfx12 ≤ generation then .ofList [.lds, .gds, .flat]
      else .ofList [.smem, .lds, .gds, .flat, .sendmsg]
  | .vm => .ofList [.vmem, .flat]
  | .vs => .ofList [.vmemStore]
  | .sample => if .gfx12 ≤ generation then .ofList [.vmemSample] else ∅
  | .bvh => if .gfx12 ≤ generation then .ofList [.vmemBvh] else ∅
  | .km => if .gfx12 ≤ generation then .ofList [.smem, .sendmsg] else ∅

/-- The counters that count an event. -/
def countersOf (generation : Generation) (event : Event) : Counters :=
  let waits := Counter.all.filter fun counter => (generation.counted counter).has event.index
  if event.isArithmetic then .ofList waits ||| Counters.alu else .ofList waits

/-- The events that complete out of order even among themselves. -/
def unordered (generation : Generation) : Events :=
  if generation < .gfx10 then .ofList [.smem, .flat] else .ofList [.smem]

/-- Whether one of the events completes out of order. -/
def isUnordered (generation : Generation) (events : Events) : Bool :=
  generation.unordered.intersects events

end WaveHazard.Machine.Generation
