import WaveHazard.Bits.Width
import WaveHazard.Wait.Delay
import WaveHazard.Wait.Packed

/-! # Lowering waits to instructions

A requirement becomes the instructions that wait for it in the form the generation has, and a
delay becomes one delay instruction. A threshold that cannot be encoded is lowered to 0, which
waits for more and is therefore always right.
-/

namespace WaveHazard.Wait

open Machine

namespace Requirement

/-- The thresholds that are above the largest one the generation can wait for. -/
def excess (wait : Requirement) (generation : Generation) : List (Counter × Nat) :=
  wait.toList.filter fun (counter, n) => generation.maxThreshold counter < n

/-- The requirement with every threshold that is too large replaced by 0. -/
def clamp (wait : Requirement) (generation : Generation) : Requirement :=
  ofFn fun counter => (wait.get counter).map fun n =>
    if generation.maxThreshold counter < n then 0 else n

/-- The opcode that waits for a single counter from GFX12 on. -/
def singleOpcode : Counter → Opcode
  | .exp => .sWaitExpcnt
  | .lgkm => .sWaitDscnt
  | .vm => .sWaitLoadcnt
  | .vs => .sWaitStorecnt
  | .sample => .sWaitSamplecnt
  | .bvh => .sWaitBvhcnt
  | .km => .sWaitKmcnt

/-- Wait for a counter together with data share, if both have a bound: the instruction and what
remains to be waited for. -/
def takePair (wait : Requirement) (counter : Counter) (opcode : Opcode) :
    List Instr × Requirement :=
  match wait.get counter, wait.lgkm with
  | some high, some low =>
      ([.immediate opcode (high * 256 + low)], (wait.set counter none).set .lgkm none)
  | _, _ => ([], wait)

/-- The instructions that wait for a requirement from GFX12 on: pairs first, then the remaining
counters in order. -/
def lowerSplit (wait : Requirement) : List Instr :=
  let (loads, wait) := wait.takePair .vm .sWaitLoadcntDscnt
  let (stores, wait) := wait.takePair .vs .sWaitStorecntDscnt
  loads ++ stores ++ wait.toList.map fun (counter, n) => .immediate (singleOpcode counter) n

/-- The instructions that wait for a requirement before GFX12: one for the stores, if the
generation counts them, and one packed immediate for the rest. -/
def lowerPacked (wait : Requirement) (generation : Generation) : Except Fault (List Instr) := do
  let stores ← match wait.vs with
    | none => pure []
    | some n =>
        if .gfx10 ≤ generation then
          pure [{ opcode := .sWaitcntVscnt,
                  operands := [.reg .null (.scalar 1)],
                  payload := .scalar n : Instr }]
        else throw (Fault.withoutStoreCounter generation.text)
  let rest := wait.set .vs none
  if rest.isEmpty then return stores
  return stores ++ [.immediate .sWaitcnt (← rest.pack generation)]

/-- The instructions that wait for a requirement. -/
def lower (wait : Requirement) (generation : Generation) : Except Fault (List Instr) :=
  let wait := wait.clamp generation
  if .gfx12 ≤ generation then .ok wait.lowerSplit else wait.lowerPacked generation

end Requirement

namespace Delay

/-- The low 16 bits of a number. -/
def lowWord (value : Int) : Nat := (value % 65536).toNat

/-- The immediate with a condition put into its first free field. -/
def addCondition (imm code : Nat) : Nat :=
  if imm = 0 then code else imm ||| code * 128 % 65536

/-- The delay instruction of a delay. It holds at most two conditions: with a transcendental and a
vector dependency the scalar one is dropped, which costs a stall at worst. -/
def lower (delay : Delay) : Except Fault Instr := do
  let trans := if delay.transInstrs = transNone then 0
    else lowWord (DelayCode.trans32Dep1.code + delay.transInstrs - 1)
  let both := if delay.valuInstrs = valuNone then trans
    else addCondition trans (lowWord (DelayCode.valuDep1.code + delay.valuInstrs - 1))
  let imm ←
    if delay.saluCycles ≠ 0 ∧ Bits.fieldWidth both ≤ 4 then
      let cycles := lowWord (min delay.saluCycles 3)
      if DelayCode.saluCycle1.code + cycles < 65536 then
        pure (addCondition both (DelayCode.saluCycle1.code + cycles - 1))
      else throw Fault.overflow
    else pure both
  return { Instr.immediate .sDelayAlu imm with
    scratch := (delay.valuCycles % 256).toNat + (delay.transCycles % 256).toNat * 65536 }

end Delay

end WaveHazard.Wait
