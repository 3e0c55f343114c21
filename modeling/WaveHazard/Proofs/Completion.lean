import WaveHazard.Proofs.Rewriting
import WaveHazard.Proofs.Visits

/-! # When waits can be inserted

Inserting waits completes when the analysis ends and every block can be lowered; nothing that is
written to the journal stands in the way.
-/

namespace WaveHazard

open Machine Hazard

namespace Walk

variable {σ α β : Type}

/-- A sequence of steps ends in what its second step ends in, once the first one completes. -/
theorem completes_bind {first : Walk σ α} {next : α → Walk σ β} {result : Except Stop β}
    {middle : α} {before between : Session σ} {holds : Session σ → Prop}
    (done : first.run before = (.ok middle, between))
    (rest : ∃ after, (next middle).run between = (result, after) ∧ holds after) :
    ∃ after, (first >>= next).run before = (result, after) ∧ holds after := by
  rwa [run_bind_of_ok done]

/-- Records change nothing but the journal. -/
theorem run_forM_log (items : List α) (level : Level) (text : α → Unit → String)
    (before : Session σ) :
    ∃ journal, (items.forM fun item => log level (text item)).run before =
      (.ok (), { before with journal }) := by
  induction items generalizing before with
  | nil => exact ⟨before.journal, rfl⟩
  | cons first rest ih =>
      obtain ⟨journal, logged⟩ :=
        ih { before with journal := before.journal.log level (text first) }
      exact ⟨journal, run_bind_eq_ok.mpr ⟨(), _, rfl, logged⟩⟩

end Walk

namespace InsertWaits

/-- Waits are placed in all blocks whose schedules exist, and only the journal grows. -/
theorem run_placeWaits {σ : Type} {setting : Setting} {pairs : List (Block × State)}
    {blocks : List Block} (schedules : List.Forall₂ (Schedules setting) pairs blocks)
    (before : Session σ) :
    ∃ journal, (placeWaits setting pairs).run before = (.ok blocks, { before with journal }) := by
  induction schedules generalizing before with
  | nil => exact ⟨before.journal, rfl⟩
  | @cons pair block pairs blocks scheduled _ ih =>
      obtain ⟨instrs, lowered, rfl⟩ := scheduled
      obtain ⟨warned, warning⟩ := Walk.run_forM_log
        (scheduleBlock setting pair.1 pair.2).clamped .warn (fun clamped _ => clampWarning clamped)
        before
      obtain ⟨journal, placed⟩ := ih { before with journal := warned }
      refine ⟨journal, Walk.run_bind_eq_ok.mpr ⟨(), _, warning, ?_⟩⟩
      refine Walk.run_bind_eq_ok.mpr ⟨instrs, _, Walk.run_ofFault_eq_ok.mpr ⟨lowered, rfl⟩, ?_⟩
      exact Walk.run_bind_eq_ok.mpr ⟨blocks, _, placed, rfl⟩

variable {config : Config} {target : Target} {program : Program}

/-- Inserting waits completes when the analysis ends and all blocks have schedules. -/
theorem run_insert {entry : Vector State program.size}
    (analyzed : (program.analyze (config.setting target program) config.maxVisits).entry =
      .ok entry) {blocks : List Block}
    (schedules : List.Forall₂ (Schedules (config.setting target program))
      (program.blocks.toList.zip entry.toList) blocks) (journal : Journal) :
    ∃ after : Session Unit,
      (insert config target).run { program, journal, data := () } = (.ok (), after) ∧
        after.program = { program with blocks := blocks.toArray } := by
  obtain ⟨traced, tracing⟩ := Walk.run_forM_log
    (program.analyze (config.setting target program) config.maxVisits).history .trace
    (fun visit _ => s!"{blockName visit.block} in: {visit.state.text}")
    ({ program, journal, data := () } : Session Unit)
  choose journal placed using @run_placeWaits Unit _ _ _ schedules
  refine Walk.completes_bind rfl (Walk.completes_bind tracing ?_)
  refine Walk.completes_bind (Walk.run_ofFault_eq_ok.mpr ⟨analyzed, rfl⟩) ?_
  refine Walk.completes_bind rfl (Walk.completes_bind (placed _) ?_)
  exact ⟨_, rfl, rfl⟩

/-- Waits can be inserted into a program when the analysis ends and all blocks have schedules. -/
theorem rewrites_of_schedules {entry : Vector State program.size}
    (analyzed : (program.analyze (config.setting target program) config.maxVisits).entry =
      .ok entry) {blocks : List Block}
    (schedules : List.Forall₂ (Schedules (config.setting target program))
      (program.blocks.toList.zip entry.toList) blocks) :
    Rewrites config target program { program with blocks := blocks.toArray } := by
  obtain ⟨after, inserted, same⟩ := run_insert analyzed schedules {}
  exact ⟨_, after, rfl, inserted, same⟩

section Single

variable {block : Block} (alone : block.linearPreds = [] ∧ block.linearSuccs = [] ∧
    block.logicalPreds = [] ∧ block.logicalSuccs = []) (visible : block.isExempt = false)
  (room : 0 < config.maxVisits) {seeded : State} {instrs : List Instr}

include alone visible room

/-- The analysis of a single block ends where it starts, and the block is replaced by its
schedule. -/
theorem schedules_seeded
    (atEntry : State.atEntry target.generation ∅ { program with blocks := #[block] } = .ok seeded)
    (scheduled : (scheduleBlock (config.setting target { program with blocks := #[block] }) block
      seeded).result = .ok instrs) :
    (Program.analyze { program with blocks := #[block] }
        (config.setting target { program with blocks := #[block] }) config.maxVisits).entry =
          .ok #v[seeded] ∧
      List.Forall₂ (Schedules (config.setting target { program with blocks := #[block] }))
        [(block, seeded)] [{ block with instrs }] := by
  have lowered := scheduled
  unfold scheduleBlock at lowered
  rw [visible, if_neg Bool.false_ne_true] at lowered
  split at lowered
  · rename_i left schedule transfer
    exact ⟨Program.analyze_single alone visible room atEntry transfer,
      .cons ⟨instrs, scheduled, rfl⟩ .nil⟩
  · cases lowered

/-- Waits can be inserted into a single block when it can be lowered behind what was pending. -/
theorem rewrites_seeded
    (atEntry : State.atEntry target.generation ∅ { program with blocks := #[block] } = .ok seeded)
    (scheduled : (scheduleBlock (config.setting target { program with blocks := #[block] }) block
      seeded).result = .ok instrs) :
    Rewrites config target { program with blocks := #[block] }
      { program with blocks := #[{ block with instrs }] } := by
  obtain ⟨analyzed, schedules⟩ := schedules_seeded alone visible room atEntry scheduled
  exact rewrites_of_schedules analyzed schedules

/-- The analysis of a single block behind which nothing was pending starts from nothing. -/
theorem schedules_single
    (scheduled : (scheduleBlock (config.setting target { blocks := #[block] }) block ∅).result =
      .ok instrs) :
    (Program.analyze { blocks := #[block] } (config.setting target { blocks := #[block] })
        config.maxVisits).entry = .ok #v[∅] ∧
      List.Forall₂ (Schedules (config.setting target { blocks := #[block] })) [(block, ∅)]
        [{ block with instrs }] :=
  @schedules_seeded config target {} block alone visible room ∅ instrs rfl scheduled

/-- Waits can be inserted into a single block when it can be lowered. -/
theorem rewrites_single
    (scheduled : (scheduleBlock (config.setting target { blocks := #[block] }) block ∅).result =
      .ok instrs) :
    Rewrites config target { blocks := #[block] } { blocks := #[{ block with instrs }] } :=
  @rewrites_seeded config target {} block alone visible room ∅ instrs rfl scheduled

end Single

end InsertWaits

end WaveHazard
