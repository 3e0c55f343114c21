import WaveHazard.Pipeline
import WaveHazard.Proofs.Completion

/-! # The stages of the pipeline

A run of the pipeline that succeeds is a run of three passes, one after the other. Validation leaves
the program as it is, waits are inserted from the states of an analysis, and delays are coalesced
block by block where the target has them. What the passes write to the journal and which options
they were given does not matter for that.
-/

namespace WaveHazard

open Machine

namespace Program

/-- The second program has the blocks of the first one up to a relation, and is the same
otherwise. -/
structure Relates (relation : Block → Block → Prop) (program next : Program) : Prop where
  same : next = { program with blocks := next.blocks }
  size : next.size = program.size
  block : ∀ {position : Nat} {block other : Block}, program.blocks[position]? = some block →
    next.blocks[position]? = some other → relation block other

namespace Relates

variable {relation first second : Block → Block → Prop} {program middle next : Program}

/-- A program is related to itself when its blocks are. -/
theorem refl (program : Program) (reflexive : ∀ block, relation block block) :
    Relates relation program program where
  same := rfl
  size := rfl
  block found also := by
    cases found.symm.trans also
    exact reflexive _

/-- Every block has a related one at its position. -/
theorem exists_block (relates : Relates relation program next) {position : Nat} {block : Block}
    (found : program.blocks[position]? = some block) :
    ∃ other, next.blocks[position]? = some other ∧ relation block other := by
  obtain ⟨inside, _⟩ := Array.getElem?_eq_some_iff.mp found
  have there : position < next.blocks.size := Nat.lt_of_lt_of_eq inside relates.size.symm
  exact ⟨_, Array.getElem?_eq_getElem there,
    relates.block found (Array.getElem?_eq_getElem there)⟩

/-- Programs that are related one after the other are related when their blocks are. -/
theorem trans (left : Relates first program middle) (right : Relates second middle next)
    (compose : ∀ block between other, first block between → second between other →
      relation block other) : Relates relation program next where
  same := by
    rw [right.same, left.same]
  size := right.size.trans left.size
  block := by
    intro position block other found last
    obtain ⟨between, there, related⟩ := left.exists_block found
    exact compose block between other related (right.block there last)

/-- Changing one block of a program relates it to what it becomes. -/
theorem modifyBlock {position : Nat} {block : Block} {instrs : List Instr}
    (found : program.blocks[position]? = some block)
    (related : relation block { block with instrs })
    (reflexive : ∀ block, relation block block) :
    Relates relation program
      (program.modifyBlock position fun block => { block with instrs }) where
  same := rfl
  size := Array.size_modify
  block := by
    intro place here other there changed
    rw [Program.modifyBlock, Array.getElem?_modify] at changed
    split at changed
    · rename_i same
      subst same
      cases there.symm.trans found
      rw [there] at changed
      cases changed
      exact related
    · cases there.symm.trans changed
      exact reflexive _

end Relates

end Program

namespace Pass

/-- A run of the pass that succeeds turns the first program into the second. -/
def Turns (pass : Pass Unit) (target : Target) (options : List String) (program next : Program) :
    Prop :=
  ∃ before after : Session Unit, before.program = program ∧
    (pass.run target options).run before = (.ok (), after) ∧ after.program = next

/-- The pass succeeds on the first program, whatever the journal says, and turns it into the
second. -/
def Completes (pass : Pass Unit) (target : Target) (options : List String)
    (program next : Program) : Prop :=
  ∀ journal, ∃ after : Session Unit,
    (pass.run target options).run { program, journal, data := () } = (.ok (), after) ∧
      after.program = next

end Pass

namespace Walk

variable {σ α β : Type}

/-- Whatever the step ends in, the program is left as it was. -/
def Still (walk : Walk σ α) : Prop :=
  ∀ before, (walk.run before).2.program = before.program

/-- Two steps that leave the program alone do so one after the other. -/
theorem Still.bind {first : Walk σ α} {next : α → Walk σ β} (still : first.Still)
    (rest : ∀ middle, (next middle).Still) : (first >>= next).Still := by
  intro before
  have here := still before
  rw [run_bind]
  rcases ran : first.run before with ⟨_ | middle, between⟩
  · rw [ran] at here
    exact here
  · rw [ran] at here
    exact (rest middle between).trans here

/-- A check leaves the program as it is, also where it fails. -/
theorem still_ofCheck (result : Except Diagnostic α) : (ofCheck result : Walk σ α).Still := by
  intro before
  cases result <;> rfl

end Walk

namespace Visitor

/-- The visitor only looks at a program. -/
structure Inspects (visitor : Visitor Unit) (target : Target) : Prop where
  start : (visitor.start target).Still
  visit : ∀ position block, (visitor.visitBlock target position block).Still
  leaves : ∀ {position : Nat} {block : Block} {before after : Session Unit} {instrs : List Instr},
    (visitor.visitBlock target position block).run before ≠ (.ok (.change instrs), after)
  finish : (visitor.finish target).Still

namespace Inspects

variable {visitor : Visitor Unit} {target : Target}

/-- Looking at blocks leaves the program as it is. -/
theorem visitBlocks (inspects : visitor.Inspects target) (positions : List Nat) :
    (visitor.visitBlocks target positions).Still := by
  induction positions with
  | nil => exact fun _ => rfl
  | cons position rest ih =>
      intro before
      unfold Visitor.visitBlocks
      rw [Walk.run_bind_of_ok (rfl : (get : Walk Unit _).run before = (.ok before, before))]
      split
      · exact ih before
      · rename_i block found
        have here := inspects.visit position block before
        rw [Walk.run_bind]
        rcases visited : (visitor.visitBlock target position block).run before with
          ⟨_ | answer, between⟩
        · rw [visited] at here
          exact here
        · rw [visited] at here
          cases answer with
          | stop => exact here
          | proceed => exact (ih between).trans here
          | change instrs => exact absurd visited inspects.leaves

/-- Looking at a program leaves it as it is. -/
theorem traverse (inspects : visitor.Inspects target) : (visitor.traverse target).Still := by
  refine inspects.start.bind fun action => ?_
  cases action with
  | stop | change => exact fun _ => rfl
  | proceed =>
      refine Walk.Still.bind (fun _ => rfl) fun session => ?_
      refine (inspects.visitBlocks _).bind fun answer => ?_
      cases answer with
      | stop | change => exact fun _ => rfl
      | proceed => exact inspects.finish.bind fun _ _ => rfl

end Inspects

/-- The visitor changes a program only by putting related blocks in the place of others. -/
structure Keeps (visitor : Visitor Unit) (target : Target) (relation : Block → Block → Prop) :
    Prop where
  refl : ∀ block, relation block block
  trans : ∀ first second third, relation first second → relation second third →
    relation first third
  start : ∀ {before after : Session Unit} {action : Action},
    (visitor.start target).run before = (.ok action, after) → after.program = before.program
  visit : ∀ {position : Nat} {block : Block} {before after : Session Unit} {action : Action},
    (visitor.visitBlock target position block).run before = (.ok action, after) →
      after.program = before.program ∧
        ∀ instrs, action = .change instrs → relation block { block with instrs }
  finish : ∀ {before after : Session Unit} {action : Action},
    (visitor.finish target).run before = (.ok action, after) → after.program = before.program

namespace Keeps

variable {visitor : Visitor Unit} {target : Target} {relation : Block → Block → Prop}
  {before after : Session Unit}

/-- Visiting blocks relates them to what is put in their place. -/
theorem visitBlocks (keeps : visitor.Keeps target relation) {positions : List Nat} {action : Action}
    (ran : (visitor.visitBlocks target positions).run before = (.ok action, after)) :
    before.program.Relates relation after.program := by
  induction positions generalizing before with
  | nil =>
      cases ran
      exact .refl _ keeps.refl
  | cons position rest ih =>
      unfold Visitor.visitBlocks at ran
      obtain ⟨session, _, got, looking⟩ := Walk.run_bind_eq_ok.mp ran
      cases got
      split at looking
      · exact ih looking
      · rename_i block found
        obtain ⟨answer, between, visited, going⟩ := Walk.run_bind_eq_ok.mp looking
        obtain ⟨same, changes⟩ := keeps.visit visited
        rw [← same] at found ⊢
        cases answer with
        | stop =>
            cases going
            exact .refl _ keeps.refl
        | proceed => exact ih going
        | change instrs =>
            obtain ⟨_, _, modified, going⟩ := Walk.run_bind_eq_ok.mp going
            cases modified
            exact (Program.Relates.modifyBlock found (changes instrs rfl) keeps.refl).trans
              (ih going) keeps.trans

/-- Visiting a program relates its blocks to what is put in their place. -/
theorem traverse (keeps : visitor.Keeps target relation)
    (ran : (visitor.traverse target).run before = (.ok (), after)) :
    before.program.Relates relation after.program := by
  obtain ⟨action, started, starting, going⟩ := Walk.run_bind_eq_ok.mp ran
  rw [← keeps.start starting]
  cases action with
  | stop =>
      cases going
      exact .refl _ keeps.refl
  | change instrs =>
      cases going
      exact .refl _ keeps.refl
  | proceed =>
      obtain ⟨session, _, got, going⟩ := Walk.run_bind_eq_ok.mp going
      cases got
      obtain ⟨answer, visited, visiting, going⟩ := Walk.run_bind_eq_ok.mp going
      have related := keeps.visitBlocks visiting
      cases answer with
      | stop =>
          cases going
          exact related
      | change instrs =>
          cases going
          exact related
      | proceed =>
          obtain ⟨_, _, finishing, going⟩ := Walk.run_bind_eq_ok.mp going
          cases going
          rw [keeps.finish finishing]
          exact related

end Keeps

end Visitor

namespace Pass

/-- A pass whose visitor keeps a relation turns a program into a related one, and a target that does
not need the pass leaves it as it is. -/
theorem relates_of_perform {pass : Pass Unit} {visitor : Visitor Unit} {target : Target}
    {relation : Block → Block → Prop} (keeps : visitor.Keeps target relation)
    {before after : Session Unit}
    (ran : (pass.perform visitor target).run before = (.ok (), after)) :
    before.program.Relates relation after.program := by
  unfold perform at ran
  split at ran
  · cases ran
    exact .refl _ keeps.refl
  · obtain ⟨_, _, traversed, cleared⟩ := Walk.run_bind_eq_ok.mp ran
    cases cleared
    exact keeps.traverse traversed

/-- A pass whose visitor only looks at programs leaves them as they are. -/
theorem still_perform {pass : Pass Unit} {visitor : Visitor Unit} {target : Target}
    (inspects : visitor.Inspects target) : (pass.perform visitor target).Still := by
  unfold perform
  split
  · exact fun _ => rfl
  · exact inspects.traverse.bind fun _ _ => rfl

end Pass

/-- Validation leaves the program as it is, whether it passes or not. -/
theorem WellFormed.still_run (target : Target) (options : List String) :
    (pass.run target options).Still := by
  intro before
  rw [Pass.run, Walk.run_bind_of_ok (rfl : (pass.prepare options).run before = (.ok _, before))]
  refine Pass.still_perform ⟨?_, ?_, ?_, fun _ => rfl⟩ before
  · exact Walk.Still.bind (fun _ => rfl) fun session =>
      (Walk.still_ofCheck _).bind fun _ _ => rfl
  · exact fun position block => (Walk.still_ofCheck _).bind fun _ _ => rfl
  · intro position block before after instrs visited
    obtain ⟨_, _, _, done⟩ := Walk.run_bind_eq_ok.mp visited
    cases done

/-- Validation leaves the program as it is. -/
theorem WellFormed.eq_of_turns {target : Target} {options : List String} {program next : Program}
    (turns : pass.Turns target options program next) : next = program := by
  obtain ⟨before, after, rfl, ran, rfl⟩ := turns
  have still := still_run target options before
  rw [ran] at still
  exact still

/-- Inserting waits is configured first, and then analyses and rewrites the program as a whole. -/
theorem InsertWaits.prepares : pass.Prepares configure fun config =>
    { start := fun target => do
        insert config target
        return .stop } :=
  fun _ => rfl

/-- Coalescing delays is configured first, and then goes from block to block. -/
theorem CoalesceDelays.prepares : pass.Prepares configure fun maxSkip =>
    { visitBlock := fun _ _ block => return .change (coalesce maxSkip block.instrs) } :=
  fun _ => rfl

/-- The pass that inserts waits does so in some configuration. -/
theorem InsertWaits.rewrites_of_turns {target : Target} {options : List String}
    {program next : Program} (turns : pass.Turns target options program next) :
    ∃ config, Rewrites config target program next := by
  obtain ⟨before, after, rfl, ran, rfl⟩ := turns
  obtain ⟨visitor, _, prepared, performed⟩ := Walk.run_bind_eq_ok.mp ran
  obtain ⟨⟨config, rfl⟩, same⟩ := prepares.of_ok prepared
  obtain ⟨_, _, traversed, cleared⟩ := Walk.run_bind_eq_ok.mp performed
  cases cleared
  -- All of the work is done before the first block; the visitor stops there.
  obtain ⟨action, _, started, stopped⟩ := Walk.run_bind_eq_ok.mp traversed
  obtain ⟨_, _, inserted, done⟩ := Walk.run_bind_eq_ok.mp started
  cases done
  cases stopped
  exact ⟨config, _, _, same, inserted, rfl⟩

/-- The visitor of the pass that inserts waits does all of its work at the start. -/
theorem InsertWaits.run_prepare {config : Config} {texts : List String}
    (configured : ∀ journal, configure (OptionTable.read name options texts journal).1 = .ok config)
    (before : Session Unit) :
    (pass.prepare texts).run before =
      (.ok { start := fun target => do
              insert config target
              return .stop },
        { before with journal := (OptionTable.read name options texts before.journal).2 }) :=
  (prepares.run rfl).trans (Prod.ext (congrArg (Except.map _) (configured before.journal)) rfl)

/-- The pass that inserts waits succeeds when its options are accepted and waits can be inserted. -/
theorem InsertWaits.completes_of_insert {config : Config} {target : Target} {texts : List String}
    {program next : Program}
    (configured : ∀ journal, configure (OptionTable.read name options texts journal).1 = .ok config)
    (inserted : ∀ journal, ∃ after : Session Unit,
      (insert config target).run { program, journal, data := () } = (.ok (), after) ∧
        after.program = next) :
    pass.Completes target texts program next := by
  intro journal
  obtain ⟨after, ran, same⟩ := inserted (OptionTable.read name options texts journal).2
  refine Walk.completes_bind (run_prepare configured _)
    ⟨after, Walk.run_bind_eq_ok.mpr ⟨(), after, ?_, rfl⟩, same⟩
  refine Walk.run_bind_eq_ok.mpr ⟨.stop, after, ?_, rfl⟩
  exact Walk.run_bind_eq_ok.mpr ⟨(), after, ran, rfl⟩

/-- The pass that inserts waits succeeds on a single block that can be lowered. -/
theorem InsertWaits.completes_single {config : Config} {target : Target} {texts : List String}
    {block : Block} {instrs : List Instr}
    (configured : ∀ journal, configure (OptionTable.read name options texts journal).1 = .ok config)
    (alone : block.linearPreds = [] ∧ block.linearSuccs = [] ∧ block.logicalPreds = [] ∧
      block.logicalSuccs = [])
    (visible : block.isExempt = false) (room : 0 < config.maxVisits)
    (scheduled : (scheduleBlock (config.setting target { blocks := #[block] }) block ∅).result =
      .ok instrs) :
    pass.Completes target texts { blocks := #[block] }
      { blocks := #[{ block with instrs }] } := by
  obtain ⟨analyzed, schedules⟩ := schedules_single alone visible room scheduled
  exact completes_of_insert configured (run_insert analyzed schedules)

/-- Coalescing puts blocks with coalesced delays in the place of others, at most. -/
theorem CoalesceDelays.relates_of_turns {target : Target} {options : List String}
    {program next : Program} (turns : pass.Turns target options program next)
    {relation : Block → Block → Prop} (reflexive : ∀ block, relation block block)
    (transitive : ∀ first second third, relation first second → relation second third →
      relation first third)
    (coalesces : ∀ maxSkip block,
      relation block { block with instrs := coalesce maxSkip block.instrs }) :
    program.Relates relation next := by
  obtain ⟨before, after, rfl, ran, rfl⟩ := turns
  obtain ⟨visitor, _, prepared, performed⟩ := Walk.run_bind_eq_ok.mp ran
  obtain ⟨⟨maxSkip, rfl⟩, same⟩ := prepares.of_ok prepared
  rw [← same]
  refine Pass.relates_of_perform ⟨reflexive, transitive, ?_, ?_, ?_⟩ performed
  · intro before after action started
    cases started
    rfl
  · intro position block before after action visited
    cases visited
    refine ⟨rfl, ?_⟩
    intro instrs change
    cases change
    exact coalesces maxSkip block
  · intro before after action finished
    cases finished
    rfl

namespace Registry

/-- The registry of the library once all passes and aliases have been added. -/
def library : Registry where
  passes := standardPasses
  aliases :=
    [("validate", ["well-formed"]),
     ("waits", ["insert-waits", "coalesce-delay-alu"]),
     ("all", ["well-formed", "insert-waits", "coalesce-delay-alu"]),
     ("none", [])]

/-- Putting the registry of the library together succeeds, and only the journal tells of it. -/
theorem run_standard (before : Session Unit) :
    ∃ journal, standard.run before = (.ok library, { before with journal }) :=
  ⟨_, rfl⟩

/-- Everything the library has is validation, the insertion of waits, and coalescing. -/
theorem plan_all : library.plan ["all"] [] =
    .ok { included := ["well-formed", "insert-waits", "coalesce-delay-alu"], excluded := [] } :=
  rfl

/-- A pass that is run by its name turns the program, and the others go on from there. -/
theorem turns_of_runNames {target : Target} {options names : List String} {name : String}
    {pass : Pass Unit} {before after : Session Unit} (named : library.pass? name = some pass)
    (ran : (library.runNames target options [] (name :: names)).run before = (.ok (), after)) :
    ∃ between : Session Unit, pass.Turns target options before.program between.program ∧
      (library.runNames target options [] names).run between = (.ok (), after) := by
  unfold runNames at ran
  rw [if_neg List.not_mem_nil, named] at ran
  obtain ⟨_, between, first, others⟩ := Walk.run_bind_eq_ok.mp ran
  obtain ⟨_, turned, running, reporting⟩ := Walk.run_bind_eq_ok.mp first
  obtain ⟨session, _, got, logging⟩ := Walk.run_bind_eq_ok.mp reporting
  cases got
  obtain ⟨_, _, traced, told⟩ := Walk.run_bind_eq_ok.mp logging
  cases traced
  cases told
  refine ⟨_, ?_, others⟩
  exact ⟨before, turned, rfl, running, rfl⟩

/-- Behind a pass that succeeds the passes of the other names go on from what it leaves. -/
theorem run_runNames_of_ok {target : Target} {options : List String} {name : String}
    {pass : Pass Unit} {before between : Session Unit} (named : library.pass? name = some pass)
    (names : List String) (ran : (pass.run target options).run before = (.ok (), between)) :
    ∃ journal, (library.runNames target options [] (name :: names)).run before =
      (library.runNames target options [] names).run { between with journal } := by
  rw [runNames, if_neg List.not_mem_nil, named]
  exact ⟨_, Walk.run_bind_of_ok (Walk.run_bind_eq_ok.mpr ⟨(), between, ran, rfl⟩)⟩

/-- A pass that fails ends the run of all names. -/
theorem run_runNames_of_error {target : Target} {options names : List String} {name : String}
    {pass : Pass Unit} {before after : Session Unit} {reason : Stop}
    (named : library.pass? name = some pass)
    (failed : (pass.run target options).run before = (.error reason, after)) :
    (library.runNames target options [] (name :: names)).run before = (.error reason, after) := by
  rw [runNames, if_neg List.not_mem_nil, named]
  exact Walk.run_bind_of_error (Walk.run_bind_of_error failed)

/-- A pass that succeeds can be run by its name, and the others go on from what it leaves. -/
theorem completes_runNames {target : Target} {options names : List String} {name : String}
    {pass : Pass Unit} {program between next : Program} {result : Except Stop Unit}
    (named : library.pass? name = some pass)
    (completes : pass.Completes target options program between)
    (others : ∀ journal, ∃ after : Session Unit,
      (library.runNames target options [] names).run { program := between, journal, data := () } =
        (result, after) ∧ after.program = next) (journal : Journal) :
    ∃ after : Session Unit,
      (library.runNames target options [] (name :: names)).run { program, journal, data := () } =
        (result, after) ∧ after.program = next := by
  obtain ⟨⟨_, told, _⟩, ran, rfl⟩ := completes journal
  obtain ⟨reported, same⟩ := run_runNames_of_ok named names ran
  rw [same]
  exact others reported

end Registry

/-- The pipeline runs the three passes of the library. -/
theorem run_insertWaitStates (target : Target) (options : List String) (before : Session Unit) :
    ∃ journal, (insertWaitStates target options).run before =
      (Registry.library.runNames target options []
        ["well-formed", "insert-waits", "coalesce-delay-alu"]).run { before with journal } := by
  obtain ⟨registered, standard⟩ := Registry.run_standard before
  have planned (session : Session Unit) :
      (Registry.library.execute target options ["all"] []).run session =
        (Registry.library.runNames target options []
          ["well-formed", "insert-waits", "coalesce-delay-alu"]).run session :=
    Walk.run_bind_of_ok (Walk.run_ofCheck_eq_ok.mpr ⟨Registry.plan_all, rfl⟩)
  have told (next : Walk Unit Unit) (text : Nat → Unit → String) (session : Session Unit) :
      ∃ journal, (do
        let size := (← get).program.size
        Walk.log .debug (text size)
        next : Walk Unit Unit).run session = next.run { session with journal } := ⟨_, rfl⟩
  unfold insertWaitStates
  rw [Walk.run_bind_of_ok standard]
  obtain ⟨journal, logged⟩ := told (Registry.library.execute target options ["all"] [])
    (fun size _ => s!"Inserting wait states for {size} blocks on {target.generation.text}")
    { before with journal := registered }
  exact ⟨journal, logged.trans (planned _)⟩

/-- The pipeline validates the program, inserts waits and coalesces delays. -/
theorem turns_of_insertWaitStates {target : Target} {options : List String}
    {before after : Session Unit}
    (ran : (insertWaitStates target options).run before = (.ok (), after)) :
    ∃ checked rewritten, WellFormed.pass.Turns target options before.program checked ∧
      InsertWaits.pass.Turns target options checked rewritten ∧
      CoalesceDelays.pass.Turns target options rewritten after.program := by
  obtain ⟨journal, same⟩ := run_insertWaitStates target options before
  have executing := same.symm.trans ran
  -- One pass after the other, by its name in the plan.
  obtain ⟨checked, validated, executing⟩ := Registry.turns_of_runNames rfl executing
  obtain ⟨rewritten, inserted, executing⟩ := Registry.turns_of_runNames rfl executing
  obtain ⟨final, coalesced, executing⟩ := Registry.turns_of_runNames rfl executing
  cases executing
  exact ⟨_, _, validated, inserted, coalesced⟩

/-- Behind validation and the insertion of waits the pipeline ends in what coalescing ends in. -/
theorem ends_insertWaitStates {target : Target} {options : List String}
    {program checked rewritten next : Program} {result : Except Stop Unit}
    (validated : WellFormed.pass.Completes target options program checked)
    (inserted : InsertWaits.pass.Completes target options checked rewritten)
    (last : ∀ journal, ∃ after : Session Unit,
      (Registry.library.runNames target options [] ["coalesce-delay-alu"]).run
        { program := rewritten, journal, data := () } = (result, after) ∧ after.program = next)
    (journal : Journal) :
    ∃ after : Session Unit,
      (insertWaitStates target options).run { program, journal, data := () } = (result, after) ∧
        after.program = next := by
  obtain ⟨registered, same⟩ := run_insertWaitStates target options { program, journal, data := () }
  rw [same]
  refine Registry.completes_runNames rfl validated ?_ _
  exact Registry.completes_runNames rfl inserted last

/-- The pipeline succeeds when its three passes do. -/
theorem completes_insertWaitStates {target : Target} {options : List String}
    {program checked rewritten next : Program}
    (validated : WellFormed.pass.Completes target options program checked)
    (inserted : InsertWaits.pass.Completes target options checked rewritten)
    (coalesced : CoalesceDelays.pass.Completes target options rewritten next) (journal : Journal) :
    ∃ after : Session Unit,
      (insertWaitStates target options).run { program, journal, data := () } = (.ok (), after) ∧
        after.program = next :=
  ends_insertWaitStates validated inserted
    (Registry.completes_runNames rfl coalesced fun _ => ⟨_, rfl, rfl⟩) journal

end WaveHazard
