import WaveHazard.Pass.Visitor

/-! # Validation

The structure that the other passes rely on: every edge is recorded on both of its ends and leads
to a block of the program; registers lie inside of the register file and match the bank of their
class; exports have their operands; direct loads and messages with a reply have a destination;
image instructions have a resource descriptor in scalar registers.
-/

namespace WaveHazard.WellFormed

open Machine

/-- The name of a graph in diagnostics. -/
def graphName : Graph → String
  | .linear => "linear"
  | .logical => "logical"

/-- The successors of a block in a graph. -/
def succs (block : Block) : Graph → List Nat
  | .linear => block.linearSuccs
  | .logical => block.logicalSuccs

/-- The predecessors of a block in a graph. -/
def preds (block : Block) : Graph → List Nat
  | .linear => block.linearPreds
  | .logical => block.logicalPreds

/-- Every successor exists and knows the block. -/
def checkSuccs (program : Program) (graph : Graph) (position : Nat) (block : Block) :
    Except Diagnostic Unit :=
  (succs block graph).forM fun succ =>
    match program.blocks[succ]? with
    | none => .error (.malformed
        s!"{blockName position} has a {graphName graph} edge to missing block {blockName succ}")
    | some next =>
        if position ∈ preds next graph then .ok ()
        else .error (.malformed (s!"{graphName graph} edge {blockName position} -> "
          ++ s!"{blockName succ} is missing from the predecessors of {blockName succ}"))

/-- Every predecessor exists. -/
def checkPredsExist (program : Program) (position : Nat) (block : Block) :
    Except Diagnostic Unit :=
  (block.linearPreds ++ block.logicalPreds).forM fun pred =>
    if pred < program.size then .ok ()
    else .error (.malformed
      s!"{blockName position} has missing predecessor {blockName pred}")

/-- Every predecessor that exists knows the block. -/
def checkPreds (program : Program) (graph : Graph) (position : Nat) (block : Block) :
    Except Diagnostic Unit :=
  (preds block graph).forM fun pred =>
    match program.blocks[pred]? with
    | none => .ok ()
    | some previous =>
        if position ∈ succs previous graph then .ok ()
        else .error (.malformed (s!"{graphName graph} edge {blockName pred} -> "
          ++ s!"{blockName position} is missing from the successors of {blockName pred}"))

/-- The edges of a block are recorded on both of their ends. -/
def checkEdges (program : Program) (position : Nat) (block : Block) :
    Except Diagnostic Unit := do
  checkSuccs program .linear position block
  checkSuccs program .logical position block
  checkPredsExist program position block
  checkPreds program .linear position block
  checkPreds program .logical position block

/-- All edges are recorded on both of their ends. -/
def checkGraphs (program : Program) : Except Diagnostic Unit :=
  program.blocks.toList.zipIdx.forM fun (block, position) => checkEdges program position block

/-- A register lies inside of the file and matches the bank of its class. -/
def checkRegister (instr : Instr) (register : Register) (cls : RegisterClass) :
    Except Diagnostic Unit :=
  if slotCount < register.number + cls.size then
    .error (.malformed (s!"{register.text} of class {cls.text} is outside of the register file "
      ++ s!"in `{instr.text}'"))
  else if register.isVector != (cls.bank == .vector) then
    .error (.malformed
      s!"{register.text} does not match register class {cls.text} in `{instr.text}'")
  else .ok ()

/-- The number of operands that the enabled channels of an export need. -/
def exportNeeds (enabledMask : Nat) (compressed : Bool) : Nat :=
  ((List.range 4).filter enabledMask.testBit).foldl (fun needed channel =>
    max needed (if compressed then channel / 2 + 1 else channel + 1)) 0

/-- The payload, operands and definitions fit the encoding. -/
def checkShape (instr : Instr) : Except Diagnostic Unit :=
  match instr.encoding with
  | .exp =>
      match instr.payload with
      | .exportTo _ enabledMask compressed _ =>
          let needed := exportNeeds enabledMask compressed
          let found := instr.operands.length
          if found < needed then
            .error (.malformed
              s!"export enables {needed} operands but has {found} in `{instr.text}'")
          else .ok ()
      | _ => .error (.malformed s!"export without export info: `{instr.text}'")
  | .ldsdir =>
      if instr.definitions.isEmpty then
        .error (.malformed s!"LDS direct load without destination: `{instr.text}'")
      else .ok ()
  | .mimg =>
      match instr.operands.head?.bind Operand.class? with
      | some { bank := .scalar, .. } => .ok ()
      | _ => .error (.malformed
          s!"image instruction without resource descriptor: `{instr.text}'")
  | _ => .ok ()

/-- A message with a reply has somewhere to write it. -/
def checkReply (instr : Instr) : Except Diagnostic Unit :=
  if (instr.opcode = .sSendmsgRtnB32 ∨ instr.opcode = .sSendmsgRtnB64)
      ∧ instr.definitions.isEmpty then
    .error (.malformed s!"message with return without destination: `{instr.text}'")
  else .ok ()

/-- An instruction is well formed. -/
def checkInstr (instr : Instr) : Except Diagnostic Unit := do
  instr.operands.forM fun operand =>
    match operand with
    | .reg register cls => checkRegister instr register cls
    | _ => .ok ()
  instr.definitions.forM fun definition =>
    checkRegister instr definition.register definition.cls
  checkShape instr
  checkReply instr

/-- The instructions of a block are well formed. -/
def checkBlock (position : Nat) (block : Block) : Except Diagnostic Unit :=
  block.instrs.forM fun instr =>
    match checkInstr instr with
    | .ok () => .ok ()
    | .error diagnostic =>
        .error (diagnostic.withNote (some s!"in block {blockName position}"))

/-- The pass that refuses malformed programs. -/
def pass : Pass Unit where
  name := "well-formed"
  description := "Check the structure of the CFG and the register operands"
  prepare := fun _ => pure
    { start := fun _ => do
        Walk.ofCheck (checkGraphs (← get).program)
        return .proceed,
      visitBlock := fun _ position block => do
        Walk.ofCheck (checkBlock position block)
        return .proceed }

end WaveHazard.WellFormed
