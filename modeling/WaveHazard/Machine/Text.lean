import WaveHazard.Machine.Instr
import WaveHazard.Text.Number

/-! # Instructions in text

Instructions are written like assembly: definitions, mnemonic, operands, and the part of the
payload that matters.
-/

namespace WaveHazard.Machine

/-- An operand in text. -/
def Operand.text : Operand → String
  | .reg register cls => s!"{register.text}:{cls.text}"
  | .const value => Text.hex value
  | .undef => "undef"

/-- A definition in text. -/
def Definition.text (definition : Definition) : String :=
  s!"{definition.register.text}:{definition.cls.text}"

/-- The part of the payload that is written after the operands. -/
def Instr.payloadText (instr : Instr) : String :=
  match instr.payload with
  | .scalar imm =>
      if imm ≠ 0 ∨ instr.encoding = .sopp ∨ instr.encoding = .sopk then
        " imm:" ++ Text.hex imm
      else ""
  | .dataShare _ gds _ _ => if gds then " gds" else ""
  | .exportTo target _ _ done => s!" dest:{target}" ++ if done then " done" else ""
  | .barrier sync => " " ++ sync.text
  | .interp waitExp => if waitExp < 7 then s!" wait_exp:{waitExp}" else ""
  | _ => ""

/-- An instruction in text. -/
def Instr.text (instr : Instr) : String :=
  let definitions := String.intercalate ", " (instr.definitions.map Definition.text)
  let operands := String.intercalate ", " (instr.operands.map Operand.text)
  (if definitions.isEmpty then "" else definitions ++ " = ")
    ++ instr.opcode.mnemonic
    ++ (if operands.isEmpty then "" else " " ++ operands)
    ++ instr.payloadText

end WaveHazard.Machine
