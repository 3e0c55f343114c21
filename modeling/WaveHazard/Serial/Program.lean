import WaveHazard.Machine.Target
import WaveHazard.Program.Basic
import WaveHazard.Serial.Tree

/-! # Programs as structured data

Every part of a program and of a target as a tree: records for what has fields, a name for a
variant without fields, and a record with that name for a variant that has some.
-/

namespace WaveHazard

open Machine Serial

/-- A set of flags by their names. -/
def FlagSet.tree {family : FlagFamily} (set : FlagSet family) : Tree := .text set.barred

namespace Machine

/-- A register class as a tree. -/
def RegisterClass.tree (cls : RegisterClass) : Tree :=
  .record
    [("ty", .text (match cls.bank with
      | .scalar => "Sgpr"
      | .vector => "Vgpr")),
     ("size", .number cls.size),
     ("linear_vgpr", .bool cls.linearVector)]

/-- A register with its class as a tree. -/
def registerTree (register : Register) (cls : RegisterClass) : Tree :=
  .record [("reg", .number register.number), ("rc", cls.tree)]

/-- An operand as a tree. -/
def Operand.tree : Operand → Tree
  | .reg register cls => .variant "Reg" (registerTree register cls)
  | .const value => .variant "Constant" (.number value)
  | .undef => .text "Undef"

/-- A definition as a tree. -/
def Definition.tree (definition : Definition) : Tree :=
  registerTree definition.register definition.cls

/-- A synchronization as a tree. -/
def Sync.tree (sync : Sync) : Tree :=
  .record
    [("storage", sync.storage.tree),
     ("semantics", sync.semantics.tree),
     ("scope", .text sync.scope.text)]

/-- A payload as a tree. -/
def Payload.tree : Payload → Tree
  | .scalar imm => .variant "Salu" (.record [("imm", .number imm)])
  | .memory sync => .variant "Mem" (.record [("sync", sync.tree)])
  | .dataShare sync gds offset0 offset1 =>
      .variant "Ds" (.record
        [("sync", sync.tree), ("gds", .bool gds), ("offset0", .number offset0),
         ("offset1", .number offset1)])
  | .exportTo target enabledMask compressed done =>
      .variant "Export" (.record
        [("dest", .number target), ("enabled_mask", .number enabledMask),
         ("compressed", .bool compressed), ("done", .bool done)])
  | .barrier sync => .variant "Barrier" (.record [("sync", sync.tree)])
  | .interp waitExp => .variant "VinterpInreg" (.record [("wait_exp", .number waitExp)])
  | .none => .text "None"

/-- An instruction as a tree. -/
def Instr.tree (instr : Instr) : Tree :=
  .record
    [("opcode", .text instr.opcode.label),
     ("operands", .list (instr.operands.map Operand.tree)),
     ("definitions", .list (instr.definitions.map Definition.tree)),
     ("info", instr.payload.tree),
     ("pass_flags", .number instr.scratch)]

/-- A target as a tree. -/
def Target.tree (target : Target) : Tree :=
  .record
    [("gfx_level", .text target.generation.label),
     ("wave_size", .number target.waveSize),
     ("workgroup_size", .number target.workgroupSize),
     ("wgp_mode", .bool target.wgpMode),
     ("errata", .record
       [("smem_store_load_hazard", .bool target.errata.scalarStoreLoad),
        ("pops_overlapped_waves_wait", .bool target.errata.overlappedWaves)])]

end Machine

/-- The positions of blocks as a tree. -/
def positionsTree (positions : List Nat) : Tree := .list (positions.map .number)

/-- The block at a position as a tree. -/
def Block.tree (block : Block) (position : Nat) : Tree :=
  .record
    [("index", .number position),
     ("kind", block.kind.tree),
     ("instructions", .list (block.instrs.map Instr.tree)),
     ("linear_preds", positionsTree block.linearPreds),
     ("linear_succs", positionsTree block.linearSuccs),
     ("logical_preds", positionsTree block.logicalPreds),
     ("logical_succs", positionsTree block.logicalSuccs),
     ("loop_nest_depth", .number block.loopDepth)]

/-- A program as a tree. -/
def Program.tree (program : Program) : Tree :=
  .record
    [("blocks", .record
       [("data", .list (program.blocks.toList.zipIdx.map fun (block, position) =>
          block.tree position)),
        ("phantom", .null)]),
     ("pending_lds_access", .bool program.pendingLocalAccess),
     ("args_pending_vmem", .list (program.pendingArguments.map Definition.tree)),
     ("has_smem_buffer_or_global_loads", .bool program.scalarLoads)]

end WaveHazard
