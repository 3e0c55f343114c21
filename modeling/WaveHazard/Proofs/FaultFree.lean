import WaveHazard.Proofs.Convergence
import WaveHazard.Proofs.Encodable
import WaveHazard.Proofs.Stages
import WaveHazard.Proofs.Validation

/-! # Validation is enough

A program that passed validation and whose pending arguments lie inside of the register file gives
the later passes nothing to fault on: its edges lead to blocks, every block can be run from every
state, and what the runs queue can be encoded. The one thing that can still end the analysis is the
limit on the visits of a block, and coalescing never fails.
-/

namespace WaveHazard

open Machine Wait Hazard Outcome

/-- Edges that are known at both ends stay inside the program. -/
theorem WellFormed.Symmetric.edgesInside {program : Program} (symmetric : Symmetric program) :
    program.EdgesInside := fun _ inside _ =>
  ⟨fun _ member => (symmetric.preds inside member).1,
    fun _ member => (symmetric.succs inside member).1⟩

namespace Hazard

namespace State

variable {generation : Generation} {state after : State} {program : Program}

/-- Arguments inside the file can be noted at the entry. -/
theorem succeeds_atEntry
    (arguments : ∀ definition ∈ program.pendingArguments, Resolve definition.slots) :
    Succeeds (state.atEntry generation program) :=
  succeeds_foldlM (fun definition member _ =>
    (Effect.succeeds_trackRegister (arguments definition member)).bind fun _ _ => ⟨_, rfl⟩) _

/-- Only the loads of arguments are counted at the entry of a program. -/
theorem exist_atEntry (exist : state.inFlight.Exist generation)
    (seeded : state.atEntry generation program = .ok after) :
    after.inFlight.Exist generation := by
  refine foldlM_keeps (fun state => state.inFlight.Exist generation) seeded ?_ ?_
  · split <;> exact exist
  · intro definition _ before next exist stepped
    obtain ⟨effect, defined, done⟩ := bind_eq_ok.mp stepped
    cases done
    exact exist_applyAll exist fun _ member _ =>
      Effect.issues_of_follows (@Effect.follows_of_argument _ ∅ _ _ defined) member

end State

/-- Joins and runs of blocks only put counters in flight that the generation has. -/
theorem stable_exist (setting : Setting) :
    Stable setting fun state => state.inFlight.Exist setting.generation where
  join exist other := exist.or other
  transfer exist ran := (Block.lowers_of_transfer exist ran).1

namespace Analysis

variable {setting : Setting} {program : Program} {order : List Nat} {limit : Nat}
  {progress next : Progress program.size}

/-- The analysis gives up when a block is due that was visited as often as the limit allows for. -/
theorem entry_run_of_last {place position : Nat} {rest : List Nat} {state : State} {grew : Bool}
    (pending : progress.pending = place :: rest) (named : order[place]? = some position)
    (inside : position < program.size) (visible : program.blocks[position].isExempt = false)
    (arriving : progress.arriving program.blocks[position] progress.entry[position] =
      .ok (state, grew))
    (due : progress.visits[position] = 0 ∨ grew = true)
    (last : progress.visits[position] = limit) :
    (run setting program order limit progress).entry =
      .error (.visitLimit position (limit + 1)) := by
  have again := not_quiet_of_due due
  rw [last] at again
  rw [run]
  split
  · rename_i ended
    cases ended.symm.trans pending
  · rename_i first others found
    cases found.symm.trans pending
    simp only [named, inside, visible, arriving, dif_pos, Bool.false_eq_true, if_false, again,
      last, lt_irrefl, dite_false]
    rfl

/-- A round that the limit does not allow for is a visit, and the analysis gives up before it. -/
theorem run_of_full (round : Round setting program order progress next)
    (visits : ∀ position (inside : position < program.size), progress.visits[position] ≤ limit)
    (full : ¬∀ position (inside : position < program.size), next.visits[position] ≤ limit) :
    ∃ position < program.size, (run setting program order limit progress).entry =
      .error (.visitLimit position (limit + 1)) := by
  cases round with
  | skip => exact absurd visits full
  | quiet => exact absurd visits full
  | @visit place position rest longer state left schedule grew pending named inside visible arriving
      due transfer enqueued =>
      have last : progress.visits[position] = limit := by
        by_contra other
        refine full fun place there => ?_
        have before := visits place there
        by_cases same : position = place
        · subst same
          simp only [Vector.getElem_set_self]
          omega
        · simpa [Vector.getElem_set_ne _ _ same] using before
      exact ⟨position, inside, entry_run_of_last pending named inside visible arriving due last⟩

/-- If all blocks can be run, the analysis ends, or it gives up before a visit of a block that was
visited as often as the limit allows for. -/
theorem ends (edges : program.EdgesInside) (ordered : program.reversePostorder = .ok order)
    (runs : ∀ position (inside : position < program.size) state,
      Succeeds (program.blocks[position].transfer setting state))
    (bounded : Bounded order progress)
    (visits : ∀ position (inside : position < program.size), progress.visits[position] ≤ limit) :
    Succeeds (run setting program order limit progress).entry ∨
    ∃ position < program.size, (run setting program order limit progress).entry =
      .error (.visitLimit position (limit + 1)) := by
  have terminates : Acc (fun next progress => Round setting program order progress next) progress :=
    bounded.acc ordered
  -- The induction is over the rounds that are still to come, the limit aside.
  induction terminates with
  | intro progress _ ih =>
      by_cases done : progress.pending = []
      · exact .inl ⟨progress.entry, entry_run_of_done done⟩
      · obtain ⟨next, round⟩ := bounded.exists_round edges (by
          intro position inside _ state _ _
          obtain ⟨⟨left, schedule⟩, transfer⟩ := runs position inside state
          exact ⟨left, schedule, transfer⟩) done
        by_cases room : ∀ position (inside : position < program.size), next.visits[position] ≤ limit
        · rw [run_of_round round room]
          exact ih next round (bounded.round ordered round) room
        · exact .inr (run_of_full round visits room)

end Analysis

end Hazard

/-- What is known of a program that has passed validation. -/
structure Program.Valid (program : Program) : Prop where
  edges : program.EdgesInside
  instrs : ∀ position (inside : position < program.size),
    ∀ instr ∈ program.blocks[position].instrs, WellFormed.Accepted instr

namespace Program.Valid

variable {program : Program} {setting : Setting}

/-- The blocks of a valid program can be ordered. -/
theorem exists_reversePostorder (valid : program.Valid) :
    Succeeds program.reversePostorder := by
  refine succeeds_ite (fun _ => succeeds_ok _) fun outside => absurd ?_ outside
  rw [linearEdgesInside, Array.all_eq_true]
  intro position inside
  rw [List.all_eq_true]
  exact fun succ member => decide_eq_true ((valid.edges position inside .linear).2 succ member)

/-- The analysis of a valid program can start. -/
theorem exists_start (valid : program.Valid)
    (arguments : ∀ definition ∈ program.pendingArguments, Resolve definition.slots) :
    ∃ order entry, analyze.start program setting = .ok (order, entry) := by
  obtain ⟨order, ordered⟩ := valid.exists_reversePostorder
  by_cases nonempty : 0 < program.size
  · obtain ⟨seeded, atEntry⟩ : Succeeds (State.atEntry setting.generation ∅ program) :=
      State.succeeds_atEntry arguments
    exact ⟨order, _, start_of_nonempty ordered nonempty atEntry⟩
  · refine ⟨order, Vector.replicate program.size ∅, ?_⟩
    unfold analyze.start
    rw [ordered]
    exact dif_neg nonempty

/-- The analysis of a valid program ends, or a block is visited too often. -/
theorem analyze (valid : program.Valid)
    (arguments : ∀ definition ∈ program.pendingArguments, Resolve definition.slots) (limit : Nat) :
    Succeeds (program.analyze setting limit).entry ∨
    ∃ position < program.size,
      (program.analyze setting limit).entry = .error (.visitLimit position (limit + 1)) := by
  obtain ⟨order, entry, started⟩ := valid.exists_start arguments
  obtain ⟨ordered, fits⟩ := of_start started
  unfold Program.analyze
  rw [started]
  refine Analysis.ends valid.edges ordered ?_ (Analysis.Bounded.initial ordered fits) ?_
  · exact fun position inside state =>
      Block.succeeds_transfer (valid.instrs position inside) setting state
  · intro position inside
    rw [Vector.getElem_replicate]
    exact Nat.zero_le _

/-- Every block of a valid program can be scheduled from the states that the analysis found. -/
theorem schedules (valid : program.Valid) {entry : Vector State program.size}
    (known : ∀ position (inside : position < program.size),
      entry[position].inFlight.Exist setting.generation) :
    ∃ blocks, List.Forall₂ (InsertWaits.Schedules setting)
      (program.blocks.toList.zip entry.toList) blocks := by
  have each : ∀ pair ∈ program.blocks.toList.zip entry.toList,
      ∃ block, InsertWaits.Schedules setting pair block := by
    intro pair member
    obtain ⟨position, inside, rfl⟩ := List.getElem_of_mem member
    have there : position < program.size := by
      rw [List.length_zip, Array.length_toList] at inside
      exact (Nat.lt_min.mp inside).1
    suffices lowered : Succeeds
        (InsertWaits.scheduleBlock setting program.blocks[position] entry[position]).result by
      obtain ⟨instrs, scheduled⟩ := lowered
      refine ⟨{ program.blocks[position] with instrs }, instrs, ?_, ?_⟩ <;>
        rw [List.getElem_zip]
      · exact scheduled
      · rfl
    obtain ⟨⟨left, schedule⟩, transfer⟩ :=
      Block.succeeds_transfer (valid.instrs position there) setting entry[position]
    unfold InsertWaits.scheduleBlock
    split
    · exact succeeds_ok _
    · rw [transfer]
      exact (Block.lowers_of_transfer (known position there) transfer).2
  clear known
  generalize program.blocks.toList.zip entry.toList = pairs at each
  induction pairs with
  | nil => exact ⟨[], .nil⟩
  | cons first rest ih =>
      obtain ⟨⟨block, scheduled⟩, others⟩ := List.forall_mem_cons.mp each
      obtain ⟨blocks, all⟩ := ih others
      exact ⟨block :: blocks, .cons scheduled all⟩

end Program.Valid

/-- A visitor that checks every block has found nothing wrong once it is through. -/
theorem Visitor.checked_of_visitBlocks {visitor : Visitor Unit} {target : Target}
    {check : Nat → Block → Except Diagnostic Unit}
    (checks : ∀ position block, visitor.visitBlock target position block = do
      Walk.ofCheck (check position block)
      return .proceed)
    {positions : List Nat} {before after : Session Unit} {action : Action}
    (ran : (visitor.visitBlocks target positions).run before = (.ok action, after)) :
    ∀ position ∈ positions, ∀ block, before.program.blocks[position]? = some block →
      check position block = .ok () := by
  induction positions with
  | nil => exact fun _ member => nomatch member
  | cons position rest ih =>
      unfold Visitor.visitBlocks at ran
      obtain ⟨session, _, got, looking⟩ := Walk.run_bind_eq_ok.mp ran
      cases got
      split at looking
      · rename_i missing
        refine List.forall_mem_cons.mpr ⟨fun block found => ?_, ih looking⟩
        cases missing.symm.trans found
      · rename_i here found
        obtain ⟨answer, between, visited, going⟩ := Walk.run_bind_eq_ok.mp looking
        rw [checks] at visited
        obtain ⟨_, _, checked, done⟩ := Walk.run_bind_eq_ok.mp visited
        cases done
        obtain ⟨passed, rfl⟩ := Walk.run_ofCheck_eq_ok.mp checked
        refine List.forall_mem_cons.mpr ⟨fun block there => ?_, ih going⟩
        cases found.symm.trans there
        exact passed

/-- A visitor that checks every block goes through when it finds nothing wrong. -/
theorem Visitor.run_visitBlocks_of_checked {visitor : Visitor Unit} {target : Target}
    {check : Nat → Block → Except Diagnostic Unit}
    (checks : ∀ position block, visitor.visitBlock target position block = do
      Walk.ofCheck (check position block)
      return .proceed)
    {positions : List Nat} {before : Session Unit}
    (checked : ∀ position ∈ positions, ∀ block, before.program.blocks[position]? = some block →
      check position block = .ok ()) :
    (visitor.visitBlocks target positions).run before = (.ok .proceed, before) := by
  induction positions with
  | nil => rfl
  | cons position rest ih =>
      obtain ⟨first, others⟩ := List.forall_mem_cons.mp checked
      refine Walk.run_bind_eq_ok.mpr ⟨before, before, rfl, ?_⟩
      split
      · exact ih others
      · rename_i block found
        refine Walk.run_bind_eq_ok.mpr ⟨.proceed, before, ?_, ih others⟩
        rw [checks]
        exact Walk.run_bind_eq_ok.mpr
          ⟨(), before, Walk.run_ofCheck_eq_ok.mpr ⟨first block found, rfl⟩, rfl⟩

namespace WellFormed

variable {target : Target} {options : List String} {before after : Session Unit}

/-- A program that passed validation has passed all of its checks. -/
theorem checks_of_run (ran : (pass.run target options).run before = (.ok (), after)) :
    checkGraphs before.program = .ok () ∧
      ∀ position (inside : position < before.program.size),
        checkBlock position before.program.blocks[position] = .ok () := by
  obtain ⟨visitor, _, prepared, performed⟩ := Walk.run_bind_eq_ok.mp ran
  cases prepared
  obtain ⟨_, _, traversed, _⟩ := Walk.run_bind_eq_ok.mp performed
  obtain ⟨action, _, started, visiting⟩ := Walk.run_bind_eq_ok.mp traversed
  obtain ⟨session, _, got, checking⟩ := Walk.run_bind_eq_ok.mp started
  cases got
  obtain ⟨_, _, checked, done⟩ := Walk.run_bind_eq_ok.mp checking
  cases done
  obtain ⟨graphs, rfl⟩ := Walk.run_ofCheck_eq_ok.mp checked
  obtain ⟨session, _, got, visiting⟩ := Walk.run_bind_eq_ok.mp visiting
  cases got
  obtain ⟨answer, _, visited, _⟩ := Walk.run_bind_eq_ok.mp visiting
  refine ⟨graphs, fun position inside => ?_⟩
  exact Visitor.checked_of_visitBlocks (fun _ _ => rfl) visited position
    (List.mem_range.mpr inside) _ (Array.getElem?_eq_getElem inside)

/-- A program that passes all checks passes validation, whatever the journal says. -/
theorem completes_of_checks {program : Program} (graphs : checkGraphs program = .ok ())
    (blocks : ∀ position (inside : position < program.size),
      checkBlock position program.blocks[position] = .ok ()) :
    pass.Completes target options program program := by
  intro journal
  let session : Session Unit := { program, journal, data := () }
  refine ⟨session, ?_, rfl⟩
  refine Walk.run_bind_eq_ok.mpr
    ⟨_, session, rfl, Walk.run_bind_eq_ok.mpr ⟨(), session, ?_, rfl⟩⟩
  refine Walk.run_bind_eq_ok.mpr ⟨.proceed, session, ?_, ?_⟩
  · refine Walk.run_bind_eq_ok.mpr
      ⟨session, session, rfl, Walk.run_bind_eq_ok.mpr ⟨(), session, ?_, rfl⟩⟩
    exact Walk.run_ofCheck_eq_ok.mpr ⟨graphs, rfl⟩
  · refine Walk.run_bind_eq_ok.mpr
      ⟨session, session, rfl, Walk.run_bind_eq_ok.mpr ⟨.proceed, session, ?_, rfl⟩⟩
    refine Visitor.run_visitBlocks_of_checked (fun _ _ => rfl) ?_
    intro position _ block found
    obtain ⟨inside, rfl⟩ := Array.getElem?_eq_some_iff.mp found
    exact blocks position inside

/-- A pass that ran to its end was given a valid program. -/
theorem valid_of_run (ran : (pass.run target options).run before = (.ok (), after)) :
    before.program.Valid := by
  obtain ⟨graphs, blocks⟩ := checks_of_run ran
  refine ⟨(symmetric_of_checkGraphs graphs).edgesInside, ?_⟩
  intro position inside instr member
  have found := forM_eq_ok.mp (blocks position inside) instr member
  split at found
  · exact accepted_of_checkInstr ‹_›
  · cases found

end WellFormed

/-- The pass that inserts waits ends with the fault that ends the analysis. -/
theorem InsertWaits.run_of_fault {config : Config} {target : Target} {texts : List String}
    (configured : ∀ journal, configure (OptionTable.read name options texts journal).1 = .ok config)
    {before : Session Unit} {fault : Fault}
    (stopped : (before.program.analyze (config.setting target before.program)
      config.maxVisits).entry = .error fault) :
    ∃ after, (pass.run target texts).run before = (.error (.faulted fault), after) := by
  have inserting (journal : Journal) : ∃ after,
      (insert config target).run { before with journal } = (.error (.faulted fault), after) := by
    obtain ⟨traced, tracing⟩ := Walk.run_forM_log
      (before.program.analyze (config.setting target before.program) config.maxVisits).history
      .trace (fun visit _ => s!"{blockName visit.block} in: {visit.state.text}")
      { before with journal }
    refine ⟨{ before with journal := traced }, (Walk.run_bind_of_ok rfl).trans
      ((Walk.run_bind_of_ok tracing).trans (Walk.run_bind_of_error ?_))⟩
    dsimp only
    rw [stopped]
    rfl
  obtain ⟨after, failed⟩ := inserting (OptionTable.read name options texts before.journal).2
  refine ⟨after, (Walk.run_bind_of_ok (run_prepare configured before)).trans ?_⟩
  exact Walk.run_bind_of_error (Walk.run_bind_of_error (Walk.run_bind_of_error failed))

namespace CoalesceDelays

/-- Folding delays visits all blocks without a fault. -/
theorem run_visitBlocks (maxSkip : Nat) (target : Target) (positions : List Nat)
    (before : Session Unit) :
    ∃ after, (Visitor.visitBlocks { visitBlock := fun _ _ block =>
      return .change (coalesce maxSkip block.instrs) } target positions).run before =
        (.ok .proceed, after) := by
  induction positions generalizing before with
  | nil => exact ⟨before, rfl⟩
  | cons position rest ih =>
      unfold Visitor.visitBlocks
      cases found : before.program.blocks[position]? with
      | none =>
          obtain ⟨after, visited⟩ := ih before
          refine ⟨after, Walk.run_bind_eq_ok.mpr ⟨before, before, rfl, ?_⟩⟩
          rw [found]
          exact visited
      | some block =>
          let instrs := coalesce maxSkip block.instrs
          obtain ⟨after, visited⟩ := ih { before with
            program := before.program.modifyBlock position fun block => { block with instrs } }
          refine ⟨after, Walk.run_bind_eq_ok.mpr ⟨before, before, rfl, ?_⟩⟩
          rw [found]
          exact Walk.run_bind_eq_ok.mpr
            ⟨.change instrs, before, rfl, Walk.run_bind_eq_ok.mpr ⟨(), _, rfl, visited⟩⟩

/-- Coalescing never fails. -/
theorem run_pass (target : Target) (before : Session Unit) :
    ∃ after, (pass.run target []).run before = (.ok (), after) := by
  have prepared : (pass.prepare []).run before =
      (.ok { visitBlock := fun _ _ block =>
              return .change (coalesce largestSkip block.instrs) },
        { before with journal := (OptionTable.read name options [] before.journal).2 }) := rfl
  unfold Pass.run
  rw [Walk.run_bind_of_ok prepared]
  unfold Pass.perform
  split
  · exact ⟨_, rfl⟩
  · obtain ⟨after, visited⟩ := run_visitBlocks largestSkip target
      (List.range before.program.size)
      { before with journal := (OptionTable.read name options [] before.journal).2 }
    refine ⟨after, Walk.run_bind_eq_ok.mpr ⟨(), after, ?_, rfl⟩⟩
    refine Walk.run_bind_eq_ok.mpr ⟨.proceed, _, rfl, ?_⟩
    refine Walk.run_bind_eq_ok.mpr ⟨_, _, rfl, ?_⟩
    exact Walk.run_bind_eq_ok.mpr ⟨.proceed, after, visited, rfl⟩

end CoalesceDelays

/-- Once validation has accepted a program whose pending arguments lie inside of the register file,
inserting waits and then coalescing delays succeeds, or a block of the program is visited more often
than the 256 times that the analysis is allowed to. -/
theorem validation_leaves_only_visit_limit {target : Target} {before validated : Session Unit}
    (accepted : (WellFormed.pass.run target []).run before = (.ok (), validated))
    (arguments : ∀ definition ∈ before.program.pendingArguments,
      definition.register.number + definition.cls.size ≤ slotCount) :
    ∃ result after,
      (do InsertWaits.pass.run target []
          CoalesceDelays.pass.run target [] : Walk Unit Unit).run validated = (result, after) ∧
        (result = .ok () ∨ ∃ position < before.program.size,
          result = .error (.faulted (.visitLimit position 257))) := by
  have valid := WellFormed.valid_of_run accepted
  have same : validated.program = before.program :=
    WellFormed.eq_of_turns ⟨before, validated, rfl, accepted, rfl⟩
  rw [← same] at valid arguments ⊢
  have resolve : ∀ definition ∈ validated.program.pendingArguments, Resolve definition.slots :=
    fun definition member => resolve_slotsFrom (arguments definition member)
  let config : InsertWaits.Config := { forceWaits := false, maxVisits := 256 }
  have configured (journal : Journal) : InsertWaits.configure
      (OptionTable.read InsertWaits.name InsertWaits.options [] journal).1 = .ok config := rfl
  rcases valid.analyze resolve config.maxVisits with ⟨entry, analyzed⟩ | ⟨position, inside, full⟩
  · have known := Program.every_of_analyze (stable_exist _) Counters.exist_empty
      (fun _ => State.exist_atEntry Counters.exist_empty) analyzed
    obtain ⟨blocks, schedules⟩ := valid.schedules known
    obtain ⟨between, inserted, _⟩ := InsertWaits.completes_of_insert configured
      (InsertWaits.run_insert analyzed schedules) validated.journal
    obtain ⟨after, coalesced⟩ := CoalesceDelays.run_pass target between
    exact ⟨.ok (), after, (Walk.run_bind_of_ok inserted).trans coalesced, .inl rfl⟩
  · obtain ⟨after, failed⟩ := InsertWaits.run_of_fault configured full
    exact ⟨_, after, Walk.run_bind_of_error failed, .inr ⟨position, inside, rfl⟩⟩

namespace LoadInLoop

/-- A load and an export of what it loads, over and over. -/
def block : Block where
  kind := .flag 0
  instrs :=
    [{ opcode := .bufferLoadDword,
       operands := [.reg (.scalar 4) (.scalar 4)],
       definitions := [⟨⟨256⟩, .vector 1⟩] },
     { opcode := .exp,
       operands := [.reg ⟨256⟩ (.vector 1)],
       payload := .exportTo 0 1 false true }]
  linearPreds := [0]
  linearSuccs := [0]
  logicalPreds := [0]
  logicalSuccs := [0]

/-- The last register of the file is being loaded on entry. -/
def session : Session Unit where
  program := { blocks := #[block], pendingArguments := [⟨⟨511⟩, .vector 1⟩] }
  journal := {}
  data := ()

end LoadInLoop

open LoadInLoop in
/-- Validation accepts the loop, and only the visit limit can stop the passes behind it. -/
theorem load_in_loop_stops_only_at_visit_limit :
    (WellFormed.pass.run (.ofGeneration .gfx11) []).run session = (.ok (), session) ∧
      ∃ result after,
        (do InsertWaits.pass.run (.ofGeneration .gfx11) []
            CoalesceDelays.pass.run (.ofGeneration .gfx11) [] : Walk Unit Unit).run session =
          (result, after) ∧
          (result = .ok () ∨ ∃ position < session.program.size,
            result = .error (.faulted (.visitLimit position 257))) := by
  have accepted : (WellFormed.pass.run (.ofGeneration .gfx11) []).run session =
      (.ok (), session) := rfl
  exact ⟨accepted, validation_leaves_only_visit_limit accepted (by decide)⟩

end WaveHazard
