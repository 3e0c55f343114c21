import WaveHazard.Machine.Instr
import WaveHazard.Machine.Target
import WaveHazard.Wait.Requirement

/-! # Encodings of waits

Counter waits have three forms: the packed immediate that holds the export, data share and vector
memory thresholds in fields whose places and widths depend on the generation; instructions for a
single counter; and, on GFX12, instructions for a vector memory counter together with data share.
An all-ones field means that the counter is not waited for.

The fields of the packed immediate do not overlap, so it is written as a sum of shifted fields.
`Instr.wait?` reads every form back.
-/

namespace WaveHazard.Machine.Generation

open WaveHazard.Wait

/-- The all-ones value of the field of a counter. A counter the generation does not have has the
value 0. -/
def fieldMax (generation : Generation) : Counter → Nat
  | .exp => 7
  | .vm => if .gfx9 ≤ generation then 63 else 15
  | .lgkm => if .gfx10 ≤ generation then 63 else 15
  | .vs => if .gfx10 ≤ generation then 63 else 0
  | .sample => if .gfx12 ≤ generation then 63 else 0
  | .bvh => if .gfx12 ≤ generation then 7 else 0
  | .km => if .gfx12 ≤ generation then 31 else 0

/-- The largest threshold of a counter that can be waited for, which is one below the field that
means "do not wait". -/
def maxThreshold (generation : Generation) (counter : Counter) : Nat :=
  generation.fieldMax counter - 1

end WaveHazard.Machine.Generation

namespace WaveHazard.Wait

open Machine

namespace Requirement

/-- The requirement in which every field of the generation has all its bits set. -/
def fieldMax (generation : Generation) : Requirement :=
  ofFn fun counter => some (generation.fieldMax counter)

/-- A fault unless the threshold is absent or at most `largest`. -/
def checkField (field : String) (threshold : Threshold) (largest : Nat) : Except Fault Unit :=
  match threshold with
  | none => .ok ()
  | some n => if n ≤ largest then .ok () else .error (.unencodableThreshold field n)

/-- The packed immediate of the export, data share and vector memory thresholds. Generations
before GFX10 also set the bits that later ones use for their wider fields, so that an absent
threshold reads the same on all of them. -/
def pack (wait : Requirement) (generation : Generation) : Except Fault Nat := do
  let vm := wait.vm.toByte
  let lgkm := wait.lgkm.toByte
  let exp := wait.exp.toByte
  checkField "expcnt" wait.exp 7
  if .gfx11 ≤ generation then
    checkField "vmcnt" wait.vm 63
    checkField "lgkmcnt" wait.lgkm 63
    return vm % 64 * 1024 + lgkm % 64 * 16 + exp % 8
  else if .gfx10 ≤ generation then
    return vm / 16 % 4 * 16384 + lgkm % 64 * 256 + exp % 8 * 16 + vm % 16
  else
    let wideLgkm := if wait.lgkm.isNone then 0x3000 else 0
    if .gfx9 ≤ generation then
      return vm / 16 % 4 * 16384 + wideLgkm + lgkm % 16 * 256 + exp % 8 * 16 + vm % 16
    else
      let wideVm := if wait.vm.isNone then 0xc000 else 0
      return wideVm + wideLgkm + lgkm % 16 * 256 + exp % 8 * 16 + vm % 16

/-- The value of a field, absent when all its bits are set. -/
def ofField (value largest : Nat) : Threshold := if value = largest then none else some value

/-- The requirement of a packed immediate. -/
def ofPacked (generation : Generation) (packed : Nat) : Requirement :=
  let field (counter : Counter) (value : Nat) := ofField value (generation.fieldMax counter)
  if .gfx11 ≤ generation then
    { vm := field .vm (packed / 1024 % 64),
      lgkm := field .lgkm (packed / 16 % 64),
      exp := field .exp (packed % 8) }
  else
    let wideVm := if .gfx9 ≤ generation then packed / 16384 % 4 * 16 else 0
    let wideLgkm := if .gfx10 ≤ generation then packed / 4096 % 4 * 16 else 0
    { vm := field .vm (packed % 16 + wideVm),
      lgkm := field .lgkm (packed / 256 % 16 + wideLgkm),
      exp := field .exp (packed / 16 % 8) }

/-- The requirement of an instruction that waits for one counter. -/
def ofSingle (counter : Counter) (imm : Nat) : Requirement := set ∅ counter (.ofByte imm)

/-- The requirement of an instruction that waits for a counter and for data share. -/
def ofPair (counter : Counter) (imm : Nat) : Requirement :=
  (set ∅ counter (ofField (imm / 256 % 64) 63)).set .lgkm (ofField (imm % 64) 63)

end Requirement

end WaveHazard.Wait

namespace WaveHazard.Machine.Instr

open WaveHazard.Wait

/-- Whether the first operand, if there is one, is the null register. An instruction with another
first operand waits for the value of a register and not for a counter. -/
def waitsOnCounter (instr : Instr) : Bool :=
  match instr.operands with
  | [] => true
  | operand :: _ => operand.register? == some Register.null

/-- The requirement of an instruction that waits for counters; `none` for every other one. -/
def wait? (instr : Instr) (generation : Generation) : Option Requirement :=
  if instr.isScalar && instr.waitsOnCounter then
    match instr.imm? with
    | none => none
    | some imm =>
        match instr.opcode with
        | .sWaitcnt => some (.ofPacked generation imm)
        | .sWaitcntVscnt | .sWaitStorecnt => some (.ofSingle .vs imm)
        | .sWaitcntVmcnt | .sWaitLoadcnt => some (.ofSingle .vm imm)
        | .sWaitcntExpcnt | .sWaitExpcnt => some (.ofSingle .exp imm)
        | .sWaitcntLgkmcnt | .sWaitDscnt => some (.ofSingle .lgkm imm)
        | .sWaitSamplecnt => some (.ofSingle .sample imm)
        | .sWaitBvhcnt => some (.ofSingle .bvh imm)
        | .sWaitKmcnt => some (.ofSingle .km imm)
        | .sWaitLoadcntDscnt => some (.ofPair .vm imm)
        | .sWaitStorecntDscnt => some (.ofPair .vs imm)
        | _ => none
  else none

end WaveHazard.Machine.Instr
