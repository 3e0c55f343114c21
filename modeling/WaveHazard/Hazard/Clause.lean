import WaveHazard.Machine.Instr

/-! # Clauses

A clause is a run of memory instructions that is issued back to back. It never reads a register it
has written and never writes a register it has read or written. Whether two instructions belong
into one clause at all is `Instr.sharesClause`.

The test of an instruction stops at the first conflict, so a register outside of the file is a
fault only if no conflict comes before it.
-/

namespace WaveHazard.Hazard

open Machine

/-- The register slots a clause has read and written so far. -/
abbrev Clause := Footprint

namespace Clause

/-- The clause of a first instruction. -/
def ofFirst (instr : Instr) : Except Fault Clause := instr.footprint

/-- Whether the registers of an instruction conflict with those of the clause. -/
def conflicts (clause : Clause) (instr : Instr) : Except Fault Bool := do
  if ← instr.reads.anyM fun slot => do return decide ((← slot) ∈ clause.writes) then
    return true
  instr.writes.anyM fun slot => do
    let slot ← slot
    return decide (slot ∈ clause.writes ∨ slot ∈ clause.reads)

/-- The clause extended by an instruction, unless the instruction conflicts with it. -/
def extend (clause : Clause) (instr : Instr) : Except Fault (Option Clause) := do
  if ← clause.conflicts instr then return none
  let touched ← instr.footprint
  return some { reads := clause.reads ++ touched.reads, writes := clause.writes ++ touched.writes }

/-- Offer an instruction to the clause: whether it is admitted, and the clause from then on. -/
def offer (clause : Clause) (instr : Instr) : Except Fault (Bool × Clause) := do
  match ← clause.extend instr with
  | some more => return (true, more)
  | none => return (false, clause)

end Clause

end WaveHazard.Hazard
