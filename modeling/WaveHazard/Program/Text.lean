import WaveHazard.Diagnostic
import WaveHazard.Machine.Text
import WaveHazard.Program.Basic

/-! # Programs in text

A program is written block by block: a header with the linear predecessors and then one line for
every instruction.
-/

namespace WaveHazard

/-- The block at a position in text. -/
def Block.text (block : Block) (position : Nat) : String :=
  let preds := String.intercalate ", " (block.linearPreds.map blockName)
  let header := if block.linearPreds.isEmpty then blockName position ++ ":\n"
    else s!"{blockName position}: /* preds: {preds} */\n"
  header ++ String.join (block.instrs.map fun instr => s!"  {instr.text}\n")

namespace Program

/-- The program in text. -/
def text (program : Program) : String :=
  String.join (program.blocks.toList.zipIdx.map fun (block, position) => block.text position)

/-- The longest part of a list of characters that takes up at most `room` bytes. -/
def fitting (room : Nat) : List Char → List Char
  | [] => []
  | c :: rest => if c.utf8Size ≤ room then c :: fitting (room - c.utf8Size) rest else []

/-- Write the program to a device with room for `limit` bytes: what was written and, if the room
ran out, the diagnostic. -/
def write (program : Program) (limit : Nat) : String × Except Diagnostic Unit :=
  let text := program.text
  if text.utf8ByteSize ≤ limit then (text, .ok ())
  else (String.ofList (fitting limit text.toList), .error (.device "limit reached"))

end Program

end WaveHazard
