import WaveHazard.Machine.Instr
import WaveHazard.Machine.Target

/-! # Timing

A coarse timing model of arithmetic instructions.
-/

namespace WaveHazard.Machine

/-- The cycles until the result of an instruction is available. -/
def Instr.latency (instr : Instr) : Int :=
  match instr.opcode.execution with
  | .valu32 | .wmma => 5
  | .valuDouble => 8
  | .trans => 10
  | .salu => 2
  | _ => 0

/-- The cycles for which an instruction occupies the issue stage: vector instructions of a wave of
64 lanes issue in two passes. -/
def Instr.issueCycles (instr : Instr) (target : Target) : Int :=
  if instr.isVector && target.waveSize == 64 then 2 else 1

end WaveHazard.Machine
