import WaveHazard.Proofs.OnlyWaits

/-! # What a refusal leaves behind

The passes of the pipeline refuse malformed programs and options that cannot be used. None of them
has touched the program by then: validation only looks at it, and the others refuse nothing but
their options, while they are prepared. But the passes are prepared one by one, as their turn comes.
So a refusal by the last one comes when waits have been inserted.
-/

namespace WaveHazard

open Machine

namespace Walk

variable {σ α β : Type}

/-- A sequence of steps of a pass ends early when the first one does, or the second behind it. -/
theorem run_bind_eq_error {first : Walk σ α} {next : α → Walk σ β} {reason : Stop}
    {before after : Session σ} :
    (first >>= next).run before = (.error reason, after) ↔
      first.run before = (.error reason, after) ∨
        ∃ middle between, first.run before = (.ok middle, between) ∧
          (next middle).run between = (.error reason, after) := by
  rw [run_bind]
  rcases first.run before with ⟨result, between⟩
  cases result with
  | error failure =>
      constructor
      · intro failed
        cases failed
        exact .inl rfl
      · rintro (failed | ⟨_, _, done, _⟩)
        · cases failed
          rfl
        · cases done
  | ok middle =>
      constructor
      · exact fun failed => .inr ⟨middle, between, rfl, failed⟩
      · rintro (failed | ⟨_, _, done, failed⟩)
        · cases failed
        · cases done
          exact failed

/-- The step never refuses the input. -/
def Accepts (walk : Walk σ α) : Prop :=
  ∀ before after diagnostic, walk.run before ≠ (.error (.refused diagnostic), after)

theorem accepts_pure (value : α) : (pure value : Walk σ α).Accepts := by
  rintro before after diagnostic ⟨⟩

theorem accepts_modify (change : Session σ → Session σ) :
    (modify change : Walk σ Unit).Accepts := by
  rintro before after diagnostic ⟨⟩

theorem accepts_get : (get : Walk σ (Session σ)).Accepts := by
  rintro before after diagnostic ⟨⟩

theorem accepts_log (level : Level) (text : Unit → String) :
    (log level text : Walk σ Unit).Accepts :=
  accepts_modify _

theorem accepts_ofFault (result : Except Fault α) : (ofFault result : Walk σ α).Accepts := by
  intro before after diagnostic failed
  cases result <;> cases failed

/-- Steps that do not refuse the input make a sequence that does not. -/
theorem Accepts.bind {first : Walk σ α} {next : α → Walk σ β} (accepts : first.Accepts)
    (rest : ∀ middle, (next middle).Accepts) : (first >>= next).Accepts := by
  intro before after diagnostic failed
  rcases run_bind_eq_error.mp failed with failed | ⟨middle, between, _, failed⟩
  · exact accepts _ _ _ failed
  · exact rest middle _ _ _ failed

/-- Writing to the journal refuses nothing. -/
theorem accepts_forM_log (items : List α) (level : Level) (text : α → Unit → String) :
    (items.forM fun item => log level (text item) : Walk σ Unit).Accepts := by
  intro before after diagnostic failed
  obtain ⟨journal, logged⟩ := run_forM_log items level text before
  cases logged.symm.trans failed

end Walk

namespace Visitor

/-- The visitor never refuses a program. -/
structure Accepts (visitor : Visitor Unit) (target : Target) : Prop where
  start : (visitor.start target).Accepts
  visit : ∀ position block, (visitor.visitBlock target position block).Accepts
  finish : (visitor.finish target).Accepts

namespace Accepts

variable {visitor : Visitor Unit} {target : Target}

/-- Visiting blocks refuses a program only if the visitor does. -/
theorem visitBlocks (accepts : visitor.Accepts target) (positions : List Nat) :
    (visitor.visitBlocks target positions).Accepts := by
  induction positions with
  | nil => exact Walk.accepts_pure _
  | cons position rest ih =>
      refine Walk.accepts_get.bind fun session => ?_
      split
      · exact ih
      · refine (accepts.visit _ _).bind fun answer => ?_
        cases answer with
        | stop => exact Walk.accepts_pure _
        | proceed => exact ih
        | change instrs => exact (Walk.accepts_modify _).bind fun _ => ih

/-- Visiting a program refuses it only if the visitor does. -/
theorem traverse (accepts : visitor.Accepts target) : (visitor.traverse target).Accepts := by
  refine accepts.start.bind fun action => ?_
  cases action with
  | stop | change => exact Walk.accepts_pure _
  | proceed =>
      refine Walk.accepts_get.bind fun session => (accepts.visitBlocks _).bind fun answer => ?_
      cases answer with
      | stop | change => exact Walk.accepts_pure _
      | proceed => exact accepts.finish.bind fun _ => Walk.accepts_pure _

end Accepts

end Visitor

namespace Pass

variable {pass : Pass Unit} {visitor : Visitor Unit} {target : Target}

/-- A pass that has read its options refuses a program only if its visitor does. -/
theorem accepts_perform (accepts : visitor.Accepts target) :
    (pass.perform visitor target).Accepts := by
  unfold perform
  split
  · exact Walk.accepts_log _ _
  · exact accepts.traverse.bind fun _ => Walk.accepts_modify _

/-- A pass that is prepared from a configuration, and never refuses a program once it is, refuses
its options before it touches the program. -/
theorem of_refused {α : Type} {configure : OptionTable → Except Stop α} {visit : α → Visitor Unit}
    (prepares : pass.Prepares configure visit) (accepts : ∀ config, (visit config).Accepts target)
    {texts : List String} {before after : Session Unit} {diagnostic : Diagnostic}
    (refused : (pass.run target texts).run before = (.error (.refused diagnostic), after)) :
    after.program = before.program ∧
      configure (OptionTable.read pass.name pass.options texts before.journal).1 =
        .error (.refused diagnostic) := by
  rcases Walk.run_bind_eq_error.mp refused with preparing | ⟨_, _, prepared, performed⟩
  · rw [prepares.run rfl] at preparing
    obtain ⟨failed, rfl⟩ := Prod.mk.inj preparing
    exact ⟨rfl, Outcome.map_eq_error.mp failed⟩
  · obtain ⟨⟨config, rfl⟩, _⟩ := prepares.of_ok prepared
    exact absurd performed (accepts_perform (accepts config) _ _ _)

end Pass

namespace InsertWaits

variable {target : Target} {options : List String}

/-- Placing waits refuses nothing. -/
theorem accepts_placeWaits {setting : Hazard.Setting} (pairs : List (Block × Hazard.State)) :
    (placeWaits setting pairs : Walk Unit _).Accepts := by
  induction pairs with
  | nil => exact Walk.accepts_pure _
  | cons pair rest ih =>
      exact (Walk.accepts_forM_log _ _ _).bind fun _ => (Walk.accepts_ofFault _).bind fun _ =>
        ih.bind fun _ => Walk.accepts_pure _

/-- Once its options are accepted, inserting waits refuses nothing. -/
theorem accepts_insert (config : Config) (target : Target) :
    (insert config target : Walk Unit Unit).Accepts :=
  Walk.accepts_get.bind fun _ => (Walk.accepts_forM_log _ _ _).bind fun _ =>
    (Walk.accepts_ofFault _).bind fun _ => (Walk.accepts_log _ _).bind fun _ =>
      (accepts_placeWaits _).bind fun _ => Walk.accepts_modify _

/-- Where waits are inserted, only options are refused, before anything is changed. -/
theorem program_of_refused {before after : Session Unit} {diagnostic : Diagnostic}
    (refused : (pass.run target options).run before = (.error (.refused diagnostic), after)) :
    after.program = before.program := by
  refine (Pass.of_refused prepares (fun config => ?_) refused).1
  exact ⟨(accepts_insert config target).bind fun _ => Walk.accepts_pure _,
    fun _ _ => Walk.accepts_pure _, Walk.accepts_pure _⟩

end InsertWaits

namespace CoalesceDelays

variable {target : Target} {options : List String}

/-- The refusal of a skip that is no number, or one that the field cannot hold. -/
def refusedSkip (got : String) : Diagnostic :=
  { kind := .invalidOption,
    detail := s!"coalesce-delay-alu:max-skip must be between 0 and 5, got {got}" }

/-- The only options that coalescing delays refuses are those with a bad skip. -/
theorem of_configure_refused {table : OptionTable} {diagnostic : Diagnostic}
    (refused : configure table = .error (.refused diagnostic)) :
    ∃ got, diagnostic = refusedSkip got := by
  unfold configure at refused
  dsimp only at refused
  split at refused
  · cases refused
  · split at refused
    · cases refused
    · cases refused
      exact ⟨_, rfl⟩

/-- Where delays are folded, only options are refused, before anything is changed. -/
theorem of_refused {before after : Session Unit} {diagnostic : Diagnostic}
    (refused : (pass.run target options).run before = (.error (.refused diagnostic), after)) :
    after.program = before.program ∧ ∃ got, diagnostic = refusedSkip got := by
  have left := Pass.of_refused prepares
    (fun _ => ⟨Walk.accepts_pure _, fun _ _ => Walk.accepts_pure _, Walk.accepts_pure _⟩) refused
  exact ⟨left.1, of_configure_refused left.2⟩

end CoalesceDelays

/-- When a list of passes is refused, the first one is, or it turns the program and the others are
refused behind it. -/
theorem Registry.refused_of_runNames {target : Target} {options names : List String} {name : String}
    {pass : Pass Unit} {before after : Session Unit} {reason : Stop}
    (named : library.pass? name = some pass)
    (refused : (library.runNames target options [] (name :: names)).run before =
      (.error reason, after)) :
    (pass.run target options).run before = (.error reason, after) ∨
      ∃ between : Session Unit, pass.Turns target options before.program between.program ∧
        (library.runNames target options [] names).run between = (.error reason, after) := by
  unfold runNames at refused
  rw [if_neg List.not_mem_nil, named] at refused
  rcases Walk.run_bind_eq_error.mp refused with first | ⟨_, between, first, others⟩
  · refine .inl ?_
    rcases Walk.run_bind_eq_error.mp first with running | ⟨_, _, _, reporting⟩
    · exact running
    · cases reporting
  · refine .inr ⟨between, ?_, others⟩
    obtain ⟨_, turned, running, reporting⟩ := Walk.run_bind_eq_ok.mp first
    cases reporting
    exact ⟨before, turned, rfl, running, rfl⟩

/-- When the input is refused, the program is left as it was, unless it is the skip for the folding
of delays that is refused: waits have been inserted then, and nothing else has been changed. -/
theorem refusal_leaves_program {target : Target} {options : List String}
    {before after : Session Unit} {diagnostic : Diagnostic}
    (refused : (insertWaitStates target options).run before =
      (.error (.refused diagnostic), after)) :
    after.program = before.program ∨
      (∃ got, diagnostic = CoalesceDelays.refusedSkip got) ∧
        InsertWaits.pass.Turns target options before.program after.program ∧
        before.program.Relates (OnlySynchronization target.generation) after.program := by
  obtain ⟨journal, same⟩ := run_insertWaitStates target options before
  have executing := same.symm.trans refused
  -- The first pass that refuses ends the run; those before it have turned the program.
  rcases Registry.refused_of_runNames rfl executing with failed | ⟨_, validated, executing⟩
  · have still := WellFormed.still_run target options { before with journal }
    rw [failed] at still
    exact .inl still
  have unchanged := WellFormed.eq_of_turns validated
  rcases Registry.refused_of_runNames rfl executing with failed | ⟨_, inserted, executing⟩
  · exact .inl ((InsertWaits.program_of_refused failed).trans unchanged)
  rcases Registry.refused_of_runNames rfl executing with failed | ⟨_, _, ⟨⟩⟩
  obtain ⟨left, skip⟩ := CoalesceDelays.of_refused failed
  rw [unchanged, ← left] at inserted
  obtain ⟨config, rewrites⟩ := InsertWaits.rewrites_of_turns inserted
  exact .inr ⟨skip, inserted, rewrites.relates⟩

namespace SkipTooLarge

/-- A message and a jump to another shader part. -/
def block : Block where
  kind := .flag 0
  instrs := [.immediate .sSendmsg 0, { opcode := .sSetpcB64 }]

/-- The block with the wait for the message. -/
def rewritten : Block :=
  { block with
    instrs := [.immediate .sSendmsg 0, .immediate .sWaitcnt 64519, { opcode := .sSetpcB64 }] }

def options : List String := ["coalesce-delay-alu:max-skip=9"]

/-- Validation completes. -/
theorem validated : WellFormed.pass.Completes (.ofGeneration .gfx11) options { blocks := #[block] }
    { blocks := #[block] } := fun _ => ⟨_, rfl, rfl⟩

/-- Inserting waits completes, with a wait behind the message. -/
theorem inserted : InsertWaits.pass.Completes (.ofGeneration .gfx11) options { blocks := #[block] }
    { blocks := #[rewritten] } :=
  @InsertWaits.completes_single { forceWaits := false, maxVisits := 256 } (.ofGeneration .gfx11) _
    block rewritten.instrs (fun _ => rfl) (by decide) (by decide) (by decide)
    (Outcome.eq_ok_of_toOption (by decide +kernel))

/-- The last pass refuses its option, and the program keeps the waits. -/
theorem skip_refused (journal : Journal) : ∃ after : Session Unit,
    (Registry.library.runNames (.ofGeneration .gfx11) options [] ["coalesce-delay-alu"]).run
        { program := { blocks := #[rewritten] }, journal, data := () } =
      (.error (.refused (CoalesceDelays.refusedSkip "9")), after) ∧
        after.program = { blocks := #[rewritten] } :=
  ⟨_, rfl, rfl⟩

/-- The pipeline is refused by its last pass. -/
theorem run_refused : ∃ after : Session Unit,
    (insertWaitStates (.ofGeneration .gfx11) options).run
        { program := { blocks := #[block] }, journal := {}, data := () } =
      (.error (.refused (CoalesceDelays.refusedSkip "9")), after) ∧
        after.program = { blocks := #[rewritten] } :=
  ends_insertWaitStates validated inserted skip_refused {}

/-- A jump to a block that there is not. -/
def broken : Program := { blocks := #[{ kind := .flag 0, linearSuccs := [7] }] }

/-- The pipeline is refused by its first pass. -/
theorem run_broken : ∃ after diagnostic,
    (insertWaitStates (.ofGeneration .gfx11) options).run
        { program := broken, journal := {}, data := () } =
      (.error (.refused diagnostic), after) ∧ diagnostic.kind = .malformedProgram :=
  ⟨_, _, rfl, rfl⟩

end SkipTooLarge

open SkipTooLarge in
/-- A malformed program is left as it was, and where only the skip is wrong, waits are inserted
before that is noticed. -/
theorem program_left_by_refusals :
    (∃ after diagnostic, (insertWaitStates (.ofGeneration .gfx11) options).run
        { program := broken, journal := {}, data := () } = (.error (.refused diagnostic), after) ∧
      after.program = broken) ∧
    ∃ after, (insertWaitStates (.ofGeneration .gfx11) options).run
        { program := { blocks := #[block] }, journal := {}, data := () } =
          (.error (.refused (CoalesceDelays.refusedSkip "9")), after) ∧
      Program.Relates (OnlySynchronization .gfx11) { blocks := #[block] } after.program := by
  constructor
  · obtain ⟨after, diagnostic, ran, malformed⟩ := run_broken
    refine ⟨after, diagnostic, ran, (refusal_leaves_program ran).resolve_right ?_⟩
    rintro ⟨⟨got, rfl⟩, _⟩
    cases malformed
  · obtain ⟨after, ran, left⟩ := run_refused
    refine ⟨after, ran, ((refusal_leaves_program ran).resolve_left fun same => ?_).2.2⟩
    rw [left] at same
    exact absurd same (by decide)

open SkipTooLarge in
/-- The skip is refused, and the program is not what it was. -/
theorem waits_left_behind_by_refusal : ∃ after : Session Unit,
    (insertWaitStates (.ofGeneration .gfx11) options).run
        { program := { blocks := #[block] }, journal := {}, data := () } =
      (.error (.refused (CoalesceDelays.refusedSkip "9")), after) ∧
        after.program ≠ { blocks := #[block] } := by
  obtain ⟨after, ran, left⟩ := run_refused
  refine ⟨after, ran, ?_⟩
  rw [left]
  decide

end WaveHazard
