import WaveHazard.Pass.Visitor

/-! # Coalescing of delays

A delay instruction has two condition fields. The second one applies to the instruction that is
`skip + 1` instructions behind the delay, so a delay can be folded into an earlier one of the same
block that has its second field free and is close enough.
-/

namespace WaveHazard.CoalesceDelays

open Machine

/-- The largest skip the encoding can hold. -/
def largestSkip : Nat := 5

/-- A delay whose second field is free, and the instructions behind it, the last one first. -/
structure Held where
  delay : Instr
  behind : List Instr := []

namespace Held

/-- The delay and the instructions behind it in order. -/
def release (held : Held) : List Instr := held.delay :: held.behind.reverse

/-- The held delay with a later one folded into its second field. -/
def merge (held : Held) (imm : Nat) : Held :=
  match held.delay.payload with
  | .scalar own =>
      let payload := Payload.scalar (own ||| held.behind.length * 16 ||| imm * 128)
      { held with delay := { held.delay with payload } }
  | _ => held

end Held

/-- The instructions held back and those that follow, with delays folded where `maxSkip` allows. -/
def coalesceFrom (maxSkip : Nat) : Option Held → List Instr → List Instr
  | none, [] => []
  | some held, [] => held.release
  | held?, instr :: rest =>
      if instr.opcode = .sDelayAlu then
        let imm := instr.imm?.getD 0
        let restart :=
          if imm / 128 = 0 then coalesceFrom maxSkip (some { delay := instr }) rest
          else instr :: coalesceFrom maxSkip none rest
        match held? with
        | none => restart
        | some held =>
            if imm ≠ 0 ∧ imm / 128 = 0 ∧ held.behind.length ≤ maxSkip then
              (held.merge imm).release ++ coalesceFrom maxSkip none rest
            else held.release ++ restart
      else
        match held? with
        | none => instr :: coalesceFrom maxSkip none rest
        | some held =>
            coalesceFrom maxSkip (some { held with behind := instr :: held.behind }) rest

/-- The instructions of a block with its delays folded where `maxSkip` allows. -/
def coalesce (maxSkip : Nat) (instrs : List Instr) : List Instr := coalesceFrom maxSkip none instrs

/-- The name of the pass. -/
def name : String := "coalesce-delay-alu"

/-- The options of the pass. -/
def options : List OptionSpec :=
  [{ name := "max-skip",
     description := "largest number of instructions between two merged delays",
     default := .number largestSkip }]

/-- The largest skip that a table of options stands for. -/
def configure (table : OptionTable) : Except Stop Nat :=
  let skip := (table.get? "max-skip").getD (.number largestSkip)
  match skip.asNatural? with
  | .error fault => .error (.faulted fault)
  | .ok n =>
      match n.filter (· ≤ largestSkip) with
      | some maxSkip => .ok maxSkip
      | none => .error (.refused
          { kind := .invalidOption,
            detail := s!"{name}:max-skip must be between 0 and {largestSkip}, got {skip.text}" })

/-- The pass that folds delays into earlier ones. -/
def pass : Pass Unit where
  name := name
  description := "fold s_delay_alu instructions into earlier ones using the skip field"
  options := options
  skip? := fun target =>
    if target.generation < .gfx11 then some s!"{target.generation.text} has no s_delay_alu"
    else none
  prepare := fun texts => do
    let maxSkip ← Walk.ofStop (configure (← Walk.readOptions name options texts))
    return { visitBlock := fun _ _ block => return .change (coalesce maxSkip block.instrs) }

end WaveHazard.CoalesceDelays
