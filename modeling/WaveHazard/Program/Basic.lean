import WaveHazard.Machine.Instr

/-! # Programs

A program is a list of blocks, the first of which is the entry, and what earlier shader parts left
pending. Blocks take part in two graphs: the linear graph follows the control flow of the wave,
the logical graph that of a single lane. A block is named by its position in the program.
-/

namespace WaveHazard

open Machine

/-- The structural roles of a block. -/
abbrev BlockKind.family : FlagFamily where
  title := "BlockKind"
  width := 16
  names := ["TOP_LEVEL", "LOOP_PREHEADER", "LOOP_HEADER", "LOOP_EXIT", "BRANCH", "MERGE",
    "UNIFORM", "DISCARD_EARLY_EXIT", "END_WITH_REGS"]

/-- A set of structural roles. -/
abbrev BlockKind := FlagSet BlockKind.family

namespace BlockKind

/-- The target of an early exit, which may be jumped to from anywhere in a block. The exit
sequence handles its waits by itself. -/
def discardEarlyExit : BlockKind := .flag 7

/-- The last block of a shader part that hands its registers to the next part. -/
def endWithRegs : BlockKind := .flag 8

end BlockKind

/-- A basic block. Predecessors and successors are the positions of blocks. -/
structure Block where
  kind : BlockKind
  instrs : List Instr := []
  linearPreds : List Nat := []
  linearSuccs : List Nat := []
  logicalPreds : List Nat := []
  logicalSuccs : List Nat := []
  loopDepth : Nat := 0
deriving DecidableEq, Inhabited

namespace Block

/-- Whether the block has one of the given roles. -/
def is (block : Block) (kind : BlockKind) : Bool := block.kind.intersects kind

/-- Whether the block is left alone by the placement of waits. -/
def isExempt (block : Block) : Bool := block.is BlockKind.discardEarlyExit

/-- The block with an instruction appended. -/
def append (block : Block) (instr : Instr) : Block := { block with instrs := block.instrs ++ [instr] }

end Block

/-- The name of the block at a position. -/
def blockName (position : Nat) : String := s!"BB{position}"

/-- A program after register allocation. -/
structure Program where
  blocks : Array Block := #[]
  /-- Accesses of an earlier shader part to local memory may be in flight on entry. -/
  pendingLocalAccess : Bool := false
  /-- Argument registers that vector memory is still loading on entry. -/
  pendingArguments : List Definition := []
  /-- The program loads buffers or global memory through scalar memory. -/
  scalarLoads : Bool := false
deriving DecidableEq, Inhabited

/-- The two graphs over the blocks of a program. -/
inductive Graph where
  | linear
  | logical
deriving DecidableEq, Inhabited

namespace Program

/-- The number of blocks. -/
def size (program : Program) : Nat := program.blocks.size

/-- The instructions of all blocks in order. -/
def instrs (program : Program) : List Instr := program.blocks.toList.flatMap Block.instrs

/-- The program with one more empty block. -/
def addBlock (program : Program) (kind : BlockKind) : Program :=
  { program with blocks := program.blocks.push { kind } }

/-- The block at a position. -/
def block (program : Program) (position : Nat) : Except Fault Block :=
  match program.blocks[position]? with
  | some block => .ok block
  | none => .error .missingElement

/-- The program with the block at a position changed. -/
def modifyBlock (program : Program) (position : Nat) (change : Block → Block) : Program :=
  { program with blocks := program.blocks.modify position change }

/-- The program with an edge of one graph, recorded on both of its ends. -/
def addEdge (program : Program) (graph : Graph) (source target : Nat) :
    Except Fault Program := do
  let _ ← program.block source
  let _ ← program.block target
  return match graph with
    | .linear =>
        (program.modifyBlock source fun block =>
          { block with linearSuccs := block.linearSuccs ++ [target] }).modifyBlock target
        fun block => { block with linearPreds := block.linearPreds ++ [source] }
    | .logical =>
        (program.modifyBlock source fun block =>
          { block with logicalSuccs := block.logicalSuccs ++ [target] }).modifyBlock target
        fun block => { block with logicalPreds := block.logicalPreds ++ [source] }

end Program

end WaveHazard
