import WaveHazard.Bits.FlagSet
import WaveHazard.Fault
import WaveHazard.Wait.Requirement

/-! # Events and counters as sets

An event is a kind of asynchronous side effect. Operations of one event complete in the order of
issue, except for the events a generation completes out of order; operations of different events
complete in any order.
-/

namespace WaveHazard.Hazard

open Wait

/-- The kinds of asynchronous side effects. -/
inductive Event where
  | smem
  | lds
  | gds
  | vmem
  /-- From GFX10 on. -/
  | vmemStore
  | flat
  | expPos
  | expParam
  | expMrtNull
  | gdsGprLock
  | vmemGprLock
  | sendmsg
  | ldsdir
  /-- From GFX12 on. -/
  | vmemSample
  /-- From GFX12 on. -/
  | vmemBvh
  | valu
  | trans
  | salu
deriving DecidableEq, Inhabited

namespace Event

/-- All events in order. -/
def all : List Event :=
  [.smem, .lds, .gds, .vmem, .vmemStore, .flat, .expPos, .expParam, .expMrtNull, .gdsGprLock,
   .vmemGprLock, .sendmsg, .ldsdir, .vmemSample, .vmemBvh, .valu, .trans, .salu]

/-- The place of an event among all of them. -/
def index : Event → Nat
  | smem => 0
  | lds => 1
  | gds => 2
  | vmem => 3
  | vmemStore => 4
  | flat => 5
  | expPos => 6
  | expParam => 7
  | expMrtNull => 8
  | gdsGprLock => 9
  | vmemGprLock => 10
  | sendmsg => 11
  | ldsdir => 12
  | vmemSample => 13
  | vmemBvh => 14
  | valu => 15
  | trans => 16
  | salu => 17

/-- Whether the event is the result of an arithmetic pipeline. -/
def isArithmetic : Event → Bool
  | valu | trans | salu => true
  | _ => false

theorem mem_all (event : Event) : event ∈ all := by cases event <;> decide

/-- Different events have different indices. -/
theorem index_injective {left right : Event} (same : left.index = right.index) :
    left = right := by
  have look (event : Event) : all[event.index]? = some event := by cases event <;> rfl
  have both := look left
  rw [same, look right] at both
  exact (Option.some.inj both).symm

end Event

/-- The word that holds a set of events. -/
abbrev Events.family : FlagFamily where
  title := "WaitEvent"
  width := 32
  names := ["SMEM", "LDS", "GDS", "VMEM", "VMEM_STORE", "FLAT", "EXP_POS", "EXP_PARAM",
    "EXP_MRT_NULL", "GDS_GPR_LOCK", "VMEM_GPR_LOCK", "SENDMSG", "LDSDIR", "VMEM_SAMPLE",
    "VMEM_BVH", "VALU", "TRANS", "SALU"]

/-- A set of events. -/
abbrev Events := FlagSet Events.family

namespace Events

/-- The set of one event. -/
def single (event : Event) : Events := .flag event.index

/-- The set of the given events. -/
def ofList (events : List Event) : Events :=
  events.foldl (fun set event => set ||| single event) ∅

/-- The events of the arithmetic pipelines. -/
def arithmetic : Events := ofList [.valu, .trans, .salu]

/-- The only event of a set. A set with none or several is a fault, and so is a flag that stands
for no event. -/
def only (events : Events) : Except Fault Event :=
  match (List.range Events.family.width).filter events.has with
  | [position] =>
      match Event.all[position]? with
      | some event => .ok event
      | none => .error .missingElement
  | _ => .error (.notSingleEvent events.describe)

end Events

/-- The word that holds a set of counters: the wait counters and one flag for the arithmetic
pipelines. -/
abbrev Counters.family : FlagFamily where
  title := "Counters"
  width := 8
  names := ["EXP", "LGKM", "VM", "VS", "SAMPLE", "BVH", "KM", "ALU"]

/-- A set of counters. -/
abbrev Counters := FlagSet Counters.family

namespace Counters

/-- The set of one wait counter. -/
def single (counter : Counter) : Counters := .flag counter.index

/-- The set of the given wait counters. -/
def ofList (counters : List Counter) : Counters :=
  counters.foldl (fun set counter => set ||| single counter) ∅

/-- The arithmetic pipelines. -/
def alu : Counters := .flag 7

/-- All wait counters. -/
def waits : Counters := ofList Counter.all

/-- Whether a wait counter is in the set. -/
def holds (counters : Counters) (counter : Counter) : Bool := counters.has counter.index

/-- The wait counters of the set in order. -/
def toList (counters : Counters) : List Counter := Counter.all.filter counters.holds

end Counters

/-- The word that holds the kinds of vector memory loads. Loads of different kinds return out of
order although they share a counter. -/
abbrev LoadKind.family : FlagFamily where
  title := "VmemType"
  width := 8
  names := ["NOSAMPLER", "SAMPLER", "BVH"]

/-- A set of kinds of vector memory loads. -/
abbrev LoadKind := FlagSet LoadKind.family

namespace LoadKind

/-- Loads without a sampler. -/
def plain : LoadKind := .flag 0

/-- Loads through a sampler. -/
def sampler : LoadKind := .flag 1

/-- Ray-tracing loads. -/
def bvh : LoadKind := .flag 2

end LoadKind

end WaveHazard.Hazard
