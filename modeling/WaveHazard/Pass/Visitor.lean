import WaveHazard.Diagnostic
import WaveHazard.Machine.Target
import WaveHazard.Pass.Option
import WaveHazard.Program.Text

/-! # Passes

A pass is described by its name and options and prepared from the options that were given. The
result is a visitor, which sees the program before the first block, every block in order, and the
program after the last block. Each time it says how to go on.

Passes work on a session: the program and the journal survive whatever ends a pass early.
-/

namespace WaveHazard

open Machine

/-- Why a pass ended early. -/
inductive Stop where
  /-- The input was refused. -/
  | refused (diagnostic : Diagnostic)
  /-- A contract was broken. -/
  | faulted (fault : Fault)
deriving DecidableEq, Inhabited

/-- What a visitor works on: the program, the journal and data of its own. -/
structure Session (σ : Type) where
  program : Program
  journal : Journal
  data : σ

/-- A step of a pass. -/
abbrev Walk (σ : Type) := ExceptT Stop (StateM (Session σ))

namespace Walk

variable {σ α : Type}

/-- End the pass because the input is refused. -/
def refuse (diagnostic : Diagnostic) : Walk σ α := throw (.refused diagnostic)

/-- Add a record to the journal. -/
def log (level : Level) (text : Unit → String) : Walk σ Unit :=
  modify fun session => { session with journal := session.journal.log level text }

/-- Read the options of the pass with the given name. -/
def readOptions (pass : String) (specs : List OptionSpec) (texts : List String) :
    Walk σ OptionTable :=
  modifyGet fun session =>
    let (table, journal) := OptionTable.read pass specs texts session.journal
    (table, { session with journal })

/-- Go on with the value of a computation, or end the pass with its fault. -/
def ofFault (result : Except Fault α) : Walk σ α :=
  match result with
  | .ok value => pure value
  | .error fault => throw (.faulted fault)

/-- Go on with the value of a preparation, or end the pass for its reason. -/
def ofStop (result : Except Stop α) : Walk σ α :=
  match result with
  | .ok value => pure value
  | .error reason => throw reason

/-- Go on with the value of a check, or end the pass because the input is refused. -/
def ofCheck (result : Except Diagnostic α) : Walk σ α :=
  match result with
  | .ok value => pure value
  | .error diagnostic => refuse diagnostic

end Walk

/-- How the traversal goes on after a visit. -/
inductive Action where
  /-- With the next block. -/
  | proceed
  /-- Not at all. -/
  | stop
  /-- With the next block, after the instructions of this one have been replaced. -/
  | change (instrs : List Instr)
deriving DecidableEq, Inhabited

/-- What a pass does with a program. -/
structure Visitor (σ : Type) where
  /-- Called before the first block. -/
  start : Target → Walk σ Action := fun _ => pure .proceed
  /-- Called for every block, with its position. -/
  visitBlock : Target → Nat → Block → Walk σ Action := fun _ _ _ => pure .proceed
  /-- Called after the last block. -/
  finish : Target → Walk σ Action := fun _ => pure .proceed

instance {σ : Type} : Inhabited (Visitor σ) := ⟨{}⟩

namespace Visitor

variable {σ : Type} (visitor : Visitor σ) (target : Target)

/-- Visit the blocks at the given positions until the visitor stops. -/
def visitBlocks : List Nat → Walk σ Action
  | [] => pure .proceed
  | position :: rest => do
      match (← get).program.blocks[position]? with
      | none => visitBlocks rest
      | some block =>
          match ← visitor.visitBlock target position block with
          | .stop => return .stop
          | .proceed => visitBlocks rest
          | .change instrs =>
              modify fun session => { session with
                program := session.program.modifyBlock position fun block =>
                  { block with instrs } }
              visitBlocks rest

/-- Visit the program: the start, every block in order, and the finish. Anything but going on ends
the traversal. -/
def traverse : Walk σ Unit := do
  match ← visitor.start target with
  | .proceed =>
      match ← visitor.visitBlocks target (List.range (← get).program.size) with
      | .proceed => let _ ← visitor.finish target
      | _ => return
  | _ => return

end Visitor

/-- A pass over programs. -/
structure Pass (σ : Type) where
  name : String
  description : String
  options : List OptionSpec := []
  /-- The reason for which a target does not need the pass. -/
  skip? : Target → Option String := fun _ => none
  /-- The visitor of the pass for the given option texts. -/
  prepare : List String → Walk σ (Visitor σ) := fun _ => pure {}
  /-- The data of the visitor once a program has been traversed. -/
  clear : σ → σ := id

namespace Pass

variable {σ : Type} (pass : Pass σ)

/-- Read the options of the pass. -/
def readOptions (texts : List String) : Walk σ OptionTable :=
  Walk.readOptions pass.name pass.options texts

/-- Run a visitor of the pass, unless the target does not need it. -/
def perform (visitor : Visitor σ) (target : Target) : Walk σ Unit :=
  match pass.skip? target with
  | some reason => Walk.log .info fun _ => s!"Skipping `{pass.name}': {reason}"
  | none => do
      visitor.traverse target
      modify fun session => { session with data := pass.clear session.data }

/-- Prepare the pass and run it. -/
def run (target : Target) (texts : List String) : Walk σ Unit := do
  let visitor ← pass.prepare texts
  pass.perform visitor target

end Pass

end WaveHazard
