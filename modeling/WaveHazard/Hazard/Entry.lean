import WaveHazard.Hazard.CounterModel
import WaveHazard.Wait.Delay

/-! # Pending producers of a register

An entry says what is still on its way to one register slot, and what to wait for before the slot
may be used. Entries are joined where control flow meets: the join knows every producer of both
and keeps the stricter wait of each counter.
-/

namespace WaveHazard.Hazard

open Machine Wait

/-- The pending producers of one register slot. -/
@[ext] structure Entry where
  /-- The thresholds at which the producers have completed. -/
  wait : Requirement := ∅
  delay : Delay := ∅
  events : Events := ∅
  counters : Counters := ∅
  /-- Reads of the register have to wait as well, not only writes. -/
  onRead : Bool := false
  /-- The entry is visible along the logical control flow only. -/
  logical : Bool := false
  /-- The kinds of vector memory loads that are pending on the load counter. -/
  loads : LoadKind := ∅
deriving DecidableEq, Inhabited

namespace Entry

/-- The producers of both entries. -/
def join (left right : Entry) : Entry where
  wait := left.wait.combine right.wait
  delay := left.delay.combine right.delay
  events := left.events ||| right.events
  counters := left.counters ||| right.counters
  onRead := left.onRead || right.onRead
  logical := left.logical && right.logical
  loads := left.loads ||| right.loads

/-- Whether joining with the second entry changes the first one. -/
def grows (left right : Entry) : Bool :=
  !(right.events.diff left.events).isEmpty
    || !(right.counters.diff left.counters).isEmpty
    || (right.onRead && !left.onRead)
    || !(right.loads.diff left.loads).isEmpty
    || (!right.logical && left.logical)
    || left.wait.tightens right.wait
    || left.delay.tightens right.delay

/-- The entry without its arithmetic producers. -/
def dropArithmetic (entry : Entry) : Entry :=
  { entry with
    counters := entry.counters.diff Counters.alu,
    delay := ∅,
    events := entry.events.diff Events.arithmetic }

/-- The entry without the producers on one counter, whose events are `counted`. A flat access
counts on two counters and is forgotten only once neither of them is pending. -/
def dropCounter (entry : Entry) (counter : Counter) (counted : Events) : Entry :=
  let counters := entry.counters.diff (Counters.single counter)
  let events := entry.events &&& (counted.complement ||| Events.single .flat)
  { entry with
    counters,
    wait := entry.wait.set counter none,
    events :=
      if counters.intersects (Counters.ofList [.lgkm, .vm]) then events
      else events.diff (counted &&& Events.single .flat),
    loads := if counter = .vm then ∅ else entry.loads }

/-- Whether nothing is pending any more. -/
def isDone (entry : Entry) : Bool := entry.counters.isEmpty

/-- The entry if something is still pending. -/
def unlessDone (entry : Entry) : Option Entry := if entry.isDone then none else some entry

/-- The entry in text. -/
def text (entry : Entry) : String :=
  entry.wait.text ++ " " ++ entry.events.describe
    ++ (if entry.delay.isEmpty then "" else " " ++ entry.delay.text)
    ++ (if entry.loads.isEmpty then "" else " " ++ entry.loads.describe)
    ++ (if entry.onRead then "" else " write-only")
    ++ (if entry.logical then "" else " linear")

end Entry

end WaveHazard.Hazard
