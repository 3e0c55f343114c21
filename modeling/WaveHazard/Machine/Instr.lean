import WaveHazard.Machine.Register
import WaveHazard.Machine.Opcode
import WaveHazard.Machine.Sync

/-! # Instructions

A machine instruction after register allocation: an opcode, the operands it reads, the registers
it writes and a payload that depends on the encoding. The payload is not tied to the opcode by the
type, because programs come from outside; passes that rely on it check it.
-/

namespace WaveHazard.Machine

/-- A source operand. -/
inductive Operand where
  | reg (register : Register) (cls : RegisterClass)
  /-- A constant word of 32 bits. -/
  | const (value : Nat)
  | undef
deriving DecidableEq, Inhabited

namespace Operand

/-- Whether the operand is a constant. -/
def isConst : Operand → Bool
  | const _ => true
  | _ => false

/-- Whether the operand has no defined value. -/
def isUndef : Operand → Bool
  | undef => true
  | _ => false

/-- The register of the operand. -/
def register? : Operand → Option Register
  | reg register _ => some register
  | _ => none

/-- The register class of the operand. -/
def class? : Operand → Option RegisterClass
  | reg _ cls => some cls
  | _ => none

/-- The size in bytes; a constant is one dword. -/
def bytes : Operand → Nat
  | reg _ cls => cls.bytes
  | const _ => 4
  | undef => 0

/-- The register slots the operand reads. -/
def slots : Operand → List (Except Fault Slot)
  | reg register cls => slotsFrom register cls.size
  | _ => []

end Operand

/-- A destination register. -/
structure Definition where
  register : Register
  cls : RegisterClass
deriving DecidableEq, Inhabited

/-- The register slots the definition writes. -/
def Definition.slots (definition : Definition) : List (Except Fault Slot) :=
  slotsFrom definition.register definition.cls.size

/-- The part of an instruction that depends on its encoding. -/
inductive Payload where
  /-- Scalar arithmetic with an immediate of 16 bits. -/
  | scalar (imm : Nat)
  /-- Scalar and vector memory, and direct loads from local memory. -/
  | memory (sync : Sync)
  /-- Local and global data share. -/
  | dataShare (sync : Sync) (gds : Bool) (offset0 offset1 : Nat)
  /-- Exports: 0-7 are render targets, 9 is null, 12-15 are positions, 32 and up parameters. -/
  | exportTo (target enabledMask : Nat) (compressed done : Bool)
  | barrier (sync : Sync)
  /-- Interpolation, which can wait for exports on its own. -/
  | interp (waitExp : Nat)
  | none
deriving DecidableEq, Inhabited

namespace Payload

/-- The payload an encoding has unless another one is given. -/
def ofEncoding (encoding : Encoding) : Payload :=
  match encoding with
  | .sop1 | .sop2 | .sopk | .sopc | .sopp => .scalar 0
  | .smem | .ldsdir | .mubuf | .mtbuf | .mimg | .flat | .global | .scratch => .memory {}
  | .ds => .dataShare {} false 0 0
  | .exp => .exportTo 0 0 false false
  | .pseudoBarrier => .barrier {}
  | .vinterpInreg => .interp 7
  | _ => .none

/-- The payload with its synchronization replaced, if it has any. -/
def withSync? (payload : Payload) (sync : Sync) : Option Payload :=
  match payload with
  | memory _ => some (.memory sync)
  | dataShare _ gds offset0 offset1 => some (.dataShare sync gds offset0 offset1)
  | barrier _ => some (.barrier sync)
  | _ => Option.none

end Payload

/-- A machine instruction. -/
structure Instr where
  opcode : Opcode
  operands : List Operand := []
  definitions : List Definition := []
  payload : Payload := .ofEncoding opcode.encoding
  /-- A word owned by the pass that is running. A delay keeps its outstanding vector cycles in the
  low half and its transcendental cycles in the high half. -/
  scratch : Nat := 0
deriving DecidableEq, Inhabited

namespace Instr

/-- The encoding family of the opcode. -/
def encoding (instr : Instr) : Encoding := instr.opcode.encoding

/-- The instruction with its immediate replaced. -/
def withImm (instr : Instr) (imm : Nat) : Except Fault Instr :=
  match instr.payload with
  | .scalar _ => .ok { instr with payload := .scalar imm }
  | _ => .error (.withoutImmediate instr.opcode.mnemonic)

/-- The instruction with its synchronization replaced. -/
def withSync (instr : Instr) (sync : Sync) : Except Fault Instr :=
  match instr.payload.withSync? sync with
  | some payload => .ok { instr with payload }
  | none => .error (.withoutSync instr.opcode.mnemonic)

/-- A scalar instruction with an immediate and no operands. -/
def immediate (opcode : Opcode) (imm : Nat) : Instr := { opcode, payload := .scalar imm }

/-- Export of every operand to a target. The mask of enabled channels is computed in a word of 16
bits and then cut to a byte. -/
def exportAll (target : Nat) (operands : List Operand) (done : Bool) : Except Fault Instr :=
  if operands.length < 16 then
    .ok { opcode := .exp, operands,
          payload := .exportTo target ((1 <<< operands.length - 1) % 256) false done }
  else .error .overflow

/-- The immediate of a scalar instruction. -/
def imm? (instr : Instr) : Option Nat :=
  match instr.payload with
  | .scalar imm => some imm
  | _ => none

/-- The synchronization of the instruction; nothing for one that carries none. -/
def sync (instr : Instr) : Sync :=
  match instr.payload with
  | .memory sync | .dataShare sync _ _ _ | .barrier sync => sync
  | _ => {}

/-- Scalar arithmetic and program control. -/
def isScalar (instr : Instr) : Bool := instr.encoding.isScalar

/-- Vector arithmetic. -/
def isVector (instr : Instr) : Bool := instr.encoding.isVector

/-- Transcendental functions, which have a pipeline of their own. -/
def isTrans (instr : Instr) : Bool := instr.opcode.execution == .trans

/-- Matrix multiply-accumulate. -/
def isMatrix (instr : Instr) : Bool := instr.opcode.execution == .wmma

/-- Scalar memory. -/
def isScalarMemory (instr : Instr) : Bool := instr.encoding == .smem

/-- Local and global data share. -/
def isDataShare (instr : Instr) : Bool := instr.encoding == .ds

/-- Global data share, which is a matter of the payload. -/
def isGlobalDataShare (instr : Instr) : Bool :=
  match instr.payload with
  | .dataShare _ gds _ _ => gds
  | _ => false

/-- Exports. -/
def isExport (instr : Instr) : Bool := instr.encoding == .exp

/-- Image memory. -/
def isImage (instr : Instr) : Bool := instr.encoding == .mimg

/-- Buffer and image memory. -/
def isVectorMemory (instr : Instr) : Bool := instr.encoding.isVectorMemory

/-- Flat, global and scratch memory. -/
def isFlatLike (instr : Instr) : Bool := instr.encoding.isFlatLike

/-- Barriers. -/
def isBarrier (instr : Instr) : Bool := instr.encoding == .pseudoBarrier

/-- Accesses to the memory shared by a workgroup. -/
def accessesShared (instr : Instr) : Bool :=
  (instr.isDataShare && !instr.isGlobalDataShare) || instr.encoding == .ldsdir

/-- The register slots the instruction reads, operand by operand. -/
def reads (instr : Instr) : List (Except Fault Slot) := instr.operands.flatMap Operand.slots

/-- The register slots the instruction writes, definition by definition. -/
def writes (instr : Instr) : List (Except Fault Slot) :=
  instr.definitions.flatMap Definition.slots

/-- Whether two instructions are likely to access nearby memory and should be issued back to back
without a wait between them. -/
def sharesClause (first next : Instr) : Bool :=
  if first.definitions.isEmpty != next.definitions.isEmpty then false
  else if first.encoding != next.encoding then false
  else match first.operands, next.operands with
    | left :: _, right :: _ =>
        -- Accesses without descriptors may be to similar addresses.
        if first.isFlatLike || first.accessesShared then true
        else if first.isScalarMemory && left.bytes == 8 && right.bytes == 8 then true
        -- The same descriptor, so perhaps similar addresses.
        else if first.isVectorMemory || first.isScalarMemory then left == right
        else first.isExport && next.isExport
    | _, _ => false

end Instr

/-- The register slots an instruction reads and writes. -/
structure Footprint where
  reads : List Slot
  writes : List Slot
deriving DecidableEq, Inhabited

/-- The footprint of an instruction, unless one of its registers lies outside of the file. -/
def Instr.footprint (instr : Instr) : Except Fault Footprint := do
  let reads ← sequenceSlots instr.reads
  let writes ← sequenceSlots instr.writes
  return { reads, writes }

/-- The message that ends the ordered section of an overlapped pixel shader. -/
def orderedSectionDone : Nat := 3

end WaveHazard.Machine
