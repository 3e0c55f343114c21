import WaveHazard.Machine.Instr

/-! # Arithmetic delays

From GFX11 on the front end of a wave does not switch away on an arithmetic stall; a delay
instruction tells it which dependency to wait for. A delay records, for each pipeline, how far
back the closest producer is and how long it still takes. A missing delay costs a stall and
nothing else.

All numbers are signed bytes: sums and differences stop at the ends of that range.
-/

namespace WaveHazard.Wait

open Machine

/-- What a condition field of a delay instruction asks for. -/
inductive DelayCode where
  | noDep
  | valuDep1
  | valuDep2
  | valuDep3
  | valuDep4
  | trans32Dep1
  | trans32Dep2
  | trans32Dep3
  | fmaAccumCycle1
  | saluCycle1
  | saluCycle2
  | saluCycle3
deriving DecidableEq, Inhabited

namespace DelayCode

/-- All codes in the order of their numbers. -/
def all : List DelayCode :=
  [.noDep, .valuDep1, .valuDep2, .valuDep3, .valuDep4, .trans32Dep1, .trans32Dep2, .trans32Dep3,
   .fmaAccumCycle1, .saluCycle1, .saluCycle2, .saluCycle3]

/-- The number of the code. -/
def code : DelayCode → Nat
  | noDep => 0
  | valuDep1 => 1
  | valuDep2 => 2
  | valuDep3 => 3
  | valuDep4 => 4
  | trans32Dep1 => 5
  | trans32Dep2 => 6
  | trans32Dep3 => 7
  | fmaAccumCycle1 => 8
  | saluCycle1 => 9
  | saluCycle2 => 10
  | saluCycle3 => 11

/-- The name of the code. -/
def name : DelayCode → String
  | noDep => "NoDep"
  | valuDep1 => "ValuDep1"
  | valuDep2 => "ValuDep2"
  | valuDep3 => "ValuDep3"
  | valuDep4 => "ValuDep4"
  | trans32Dep1 => "Trans32Dep1"
  | trans32Dep2 => "Trans32Dep2"
  | trans32Dep3 => "Trans32Dep3"
  | fmaAccumCycle1 => "FmaAccumCycle1"
  | saluCycle1 => "SaluCycle1"
  | saluCycle2 => "SaluCycle2"
  | saluCycle3 => "SaluCycle3"

/-- The code with the given number. -/
def ofCode? (code : Nat) : Option DelayCode := all[code]?

theorem ofCode?_code (delayCode : DelayCode) : ofCode? delayCode.code = some delayCode := by
  cases delayCode <;> rfl

end DelayCode

/-- The nearest value in the range of a signed byte. -/
def clampByte (value : Int) : Int := max (-128) (min 127 value)

/-- The distance to the closest arithmetic producers of a value. -/
@[ext] structure Delay where
  /-- Vector instructions issued since the value was written. -/
  valuInstrs : Int := 5
  /-- Cycles until the vector instruction that writes the value finishes. -/
  valuCycles : Int := 0
  /-- Transcendental instructions issued since the value was written. -/
  transInstrs : Int := 4
  /-- Cycles until the transcendental instruction that writes the value finishes. -/
  transCycles : Int := 0
  /-- Cycles until the scalar instruction that writes the value finishes. -/
  saluCycles : Int := 0
deriving DecidableEq, Inhabited

namespace Delay

/-- One past the largest vector distance that can be encoded. -/
def valuNone : Int := 5

/-- One past the largest transcendental distance that can be encoded. -/
def transNone : Int := 4

instance : EmptyCollection Delay := ⟨{}⟩

/-- Both delays at once: the closer producer and the longer latency of each pipeline. -/
def combine (left right : Delay) : Delay where
  valuInstrs := min left.valuInstrs right.valuInstrs
  valuCycles := max left.valuCycles right.valuCycles
  transInstrs := min left.transInstrs right.transInstrs
  transCycles := max left.transCycles right.transCycles
  saluCycles := max left.saluCycles right.saluCycles

/-- Whether combining with the second delay changes the first one. -/
def tightens (left right : Delay) : Bool :=
  right.valuInstrs < left.valuInstrs || right.transInstrs < left.transInstrs
    || left.saluCycles < right.saluCycles || left.valuCycles < right.valuCycles
    || left.transCycles < right.transCycles

/-- The delay in its consistent form: a dependency that is out of range or finished is none. -/
def settle (delay : Delay) : Delay :=
  let valuOver := delay.valuInstrs ≥ valuNone ∨ delay.valuCycles ≤ 0
  let transOver := delay.transInstrs ≥ transNone ∨ delay.transCycles ≤ 0
  { valuInstrs := if valuOver then valuNone else delay.valuInstrs,
    valuCycles := if valuOver then 0 else delay.valuCycles,
    transInstrs := if transOver then transNone else delay.transInstrs,
    transCycles := if transOver then 0 else delay.transCycles,
    saluCycles := max delay.saluCycles 0 }

/-- Whether waiting for the delay would do nothing. -/
def isEmpty (delay : Delay) : Bool :=
  delay.valuInstrs == valuNone && delay.transInstrs == transNone && delay.saluCycles == 0

/-- The delay after one more instruction that took `cycles` cycles. -/
def age (delay : Delay) (isValu isTrans : Bool) (cycles : Int) : Delay :=
  settle
    { valuInstrs := if isValu then clampByte (delay.valuInstrs + 1) else delay.valuInstrs,
      valuCycles := clampByte (delay.valuCycles - cycles),
      transInstrs := if isTrans then clampByte (delay.transInstrs + 1) else delay.transInstrs,
      transCycles := clampByte (delay.transCycles - cycles),
      saluCycles := clampByte (delay.saluCycles - cycles) }

/-- The longest latency the delay still covers. -/
def maxCycles (delay : Delay) : Int :=
  max (max delay.saluCycles delay.valuCycles) delay.transCycles

/-- The delay with one condition of a delay instruction added. -/
def attach (delay : Delay) : DelayCode → Delay
  | .noDep | .fmaAccumCycle1 => delay
  | .valuDep1 => { delay with valuInstrs := 1 }
  | .valuDep2 => { delay with valuInstrs := 2 }
  | .valuDep3 => { delay with valuInstrs := 3 }
  | .valuDep4 => { delay with valuInstrs := 4 }
  | .trans32Dep1 => { delay with transInstrs := 1 }
  | .trans32Dep2 => { delay with transInstrs := 2 }
  | .trans32Dep3 => { delay with transInstrs := 3 }
  | .saluCycle1 => { delay with saluCycles := 1 }
  | .saluCycle2 => { delay with saluCycles := 2 }
  | .saluCycle3 => { delay with saluCycles := 3 }

/-- The delay with the condition of a field added; a field without a meaning adds nothing. -/
def attachCode (delay : Delay) (code : Nat) : Delay :=
  match DelayCode.ofCode? code with
  | some condition => delay.attach condition
  | none => delay

/-- The dependencies of the delay in brackets. -/
def text (delay : Delay) : String :=
  let valu := if delay.valuInstrs = valuNone then []
    else [s!"valu:{delay.valuInstrs}@{delay.valuCycles}"]
  let trans := if delay.transInstrs = transNone then []
    else [s!"trans:{delay.transInstrs}@{delay.transCycles}"]
  let salu := if delay.saluCycles = 0 then [] else [s!"salu:{delay.saluCycles}"]
  "[" ++ String.intercalate " " (valu ++ trans ++ salu) ++ "]"

end Delay

end WaveHazard.Wait

namespace WaveHazard.Machine.Instr

open WaveHazard.Wait

/-- The delay of a delay instruction; `none` for every other one. The immediate has two condition
fields, and the outstanding cycles are kept in the scratch word. -/
def delay? (instr : Instr) : Option Delay :=
  if instr.opcode = .sDelayAlu then
    instr.imm?.map fun imm =>
      { ((∅ : Delay).attachCode (imm % 16)).attachCode (imm / 128 % 16) with
        valuCycles := ((min (instr.scratch % 65536) 127 : Nat) : Int),
        transCycles := ((min (instr.scratch / 65536) 127 : Nat) : Int) }
  else none

end WaveHazard.Machine.Instr
