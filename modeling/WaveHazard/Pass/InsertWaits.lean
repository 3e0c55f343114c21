import WaveHazard.Hazard.Analysis
import WaveHazard.Pass.Visitor

/-! # Insertion of waits

The pass that makes a program safe: the analysis computes the hazard state at the start of every
block, and then every block is replaced by its schedule, in which waits and delays stand in front
of the instructions that need them.
-/

namespace WaveHazard.InsertWaits

open Machine Hazard

/-- How waits are inserted. -/
structure Config where
  /-- Wait for everything outstanding before every instruction. -/
  forceWaits : Bool
  /-- How often one block may be visited before the analysis gives up. -/
  maxVisits : Nat
deriving DecidableEq, Inhabited

/-- The name of the pass. -/
def name : String := "insert-waits"

/-- The options of the pass. -/
def options : List OptionSpec :=
  [{ name := "force-waitcnt",
     description := "wait for all outstanding counters before every instruction",
     default := .flag false },
   { name := "max-visits",
     description := "number of visits of one block before the analysis aborts",
     default := .number 256 }]

/-- The number of visits that a value stands for: a positive word of 32 bits. -/
def visitLimit? (value : OptionValue) : Except Fault (Option Nat) :=
  value.asNatural?.map fun n => n.filter fun n => 0 < n && n < 0x100000000

/-- The configuration that a table of options stands for. -/
def configure (table : OptionTable) : Except Stop Config :=
  let visits := (table.get? "max-visits").getD (.number 256)
  let force := (table.get? "force-waitcnt").getD (.flag false)
  match visitLimit? visits with
  | .error fault => .error (.faulted fault)
  | .ok none => .error (.refused
      { kind := .invalidOption,
        detail := s!"{name}:max-visits must be a positive number, got {visits.text}" })
  | .ok (some maxVisits) =>
      match force.asFlag with
      | .error fault => .error (.faulted fault)
      | .ok forceWaits => .ok { forceWaits, maxVisits }

/-- What the analysis of a program is run for. -/
def Config.setting (config : Config) (target : Target) (program : Program) : Setting :=
  { target, forceWaits := config.forceWaits, scalarLoads := program.scalarLoads }

/-- What the user is told about a threshold that was lowered. -/
def clampWarning (clamped : Clamped) : String :=
  s!"{clamped.counter.name} threshold {clamped.threshold} exceeds the maximum of "
    ++ s!"{clamped.largest}, waiting for 0"

/-- A block with its schedule in the place of its instructions, given the state at its start. An
exempt block stays as it is. -/
def scheduleBlock (setting : Setting) (block : Block) (state : State) : Lowered :=
  if block.isExempt then { result := .ok block.instrs }
  else match block.transfer setting state with
    | .ok (_, schedule) => schedule.lower setting.generation
    | .error fault => { result := .error fault }

/-- The blocks with their schedules in the place of their instructions. -/
def placeWaits {σ : Type} (setting : Setting) : List (Block × State) → Walk σ (List Block)
  | [] => pure []
  | (block, state) :: rest => do
      let lowered := scheduleBlock setting block state
      lowered.clamped.forM fun clamped => Walk.log .warn fun _ => clampWarning clamped
      let instrs ← Walk.ofFault lowered.result
      return { block with instrs } :: (← placeWaits setting rest)

/-- Analyze the program and place the waits. -/
def insert {σ : Type} (config : Config) (target : Target) : Walk σ Unit := do
  let program := (← get).program
  let setting := config.setting target program
  let findings := program.analyze setting config.maxVisits
  findings.history.forM fun visit => Walk.log .trace fun _ =>
    s!"{blockName visit.block} in: {visit.state.text}"
  let entry ← Walk.ofFault findings.entry
  Walk.log .debug fun _ =>
    s!"{name}: {findings.history.length} block visits for {program.size} blocks, "
      ++ s!"at most {findings.maxVisits} per block"
  let blocks ← placeWaits setting (program.blocks.toList.zip entry.toList)
  modify fun session => { session with program := { program with blocks := blocks.toArray } }

/-- The pass that inserts waits. All the work is done at the start. -/
def pass : Pass Unit where
  name := name
  description := "insert waits for asynchronous counters and ALU delays"
  options := options
  prepare := fun texts => do
    let config ← Walk.ofStop (configure (← Walk.readOptions name options texts))
    return { start := fun target => do
      insert config target
      return .stop }

end WaveHazard.InsertWaits
