import WaveHazard.Proofs.FaultFree

/-! # What the limit on visits decides

The analysis of a valid program ends without a limit, so running into one says nothing about
divergence. A limit draws the line by the number of visits that the analysis takes: where no block
is visited more often than the limit allows for, the findings are those without a limit, and
everywhere else the analysis is given up although it would have ended.
-/

namespace WaveHazard

open Machine Hazard Outcome

/-- Every edge of a program leads forward in an order of its blocks: the program has no loops. -/
def Program.Forward (program : Program) (order : List Nat) : Prop :=
  ∀ position (inside : position < program.size) graph,
    ∀ succ ∈ WellFormed.succs program.blocks[position] graph,
      order.idxOf position < order.idxOf succ

namespace Hazard

/-- The largest of some numbers is within a bound when all of them are. -/
theorem foldl_max_le_iff {number : Nat → Nat} {items : List Nat} {start bound : Nat} :
    items.foldl (fun most item => max most (number item)) start ≤ bound ↔
      start ≤ bound ∧ ∀ item ∈ items, number item ≤ bound := by
  induction items generalizing start with
  | nil => simp
  | cons first rest ih => rw [List.foldl_cons, ih, List.forall_mem_cons, max_le_iff, and_assoc]

/-- The most visits of a block are bounded when those of each block are. -/
theorem Findings.maxVisits_le_iff {size bound : Nat} {findings : Findings size} :
    findings.maxVisits ≤ bound ↔ ∀ block < size, findings.visitsOf block ≤ bound := by
  rw [maxVisits, foldl_max_le_iff]
  simp

namespace Progress

/-- A place that is in an ascending list already is not put into it again. -/
theorem insertPlace_of_mem {place : Nat} {pending : List Nat}
    (ascending : pending.Pairwise (· < ·)) (member : place ∈ pending) :
    insertPlace place pending = pending := by
  induction pending with
  | nil => cases member
  | cons first rest ih =>
      obtain ⟨above, later⟩ := List.pairwise_cons.mp ascending
      unfold insertPlace
      rcases List.mem_cons.mp member with rfl | behind
      · rw [if_neg (lt_irrefl _), if_pos rfl]
      · have larger := above place behind
        rw [if_neg larger.asymm, if_neg larger.ne', ih later behind]

/-- Successors that wait already change nothing in the worklist. -/
theorem enqueue_of_mem {size : Nat} {order succs pending : List Nat}
    (ascending : pending.Pairwise (· < ·))
    (waiting : ∀ succ ∈ succs, succ < size ∧ order.idxOf succ ∈ pending) :
    enqueue size order succs pending = .ok pending := by
  induction succs with
  | nil => rfl
  | cons first rest ih =>
      obtain ⟨⟨inside, member⟩, others⟩ := List.forall_mem_cons.mp waiting
      refine bind_eq_ok.mpr ⟨pending, (if_pos inside).trans ?_, ih others⟩
      rw [insertPlace_of_mem ascending member]

end Progress

namespace Analysis

variable {setting : Setting} {program : Program} {order : List Nat} {limit : Nat}
  {progress next : Progress program.size}

/-- Visits are never taken back. -/
theorem Round.visits_le (round : Round setting program order progress next) {position : Nat}
    (inside : position < program.size) : progress.visits[position] ≤ next.visits[position] := by
  cases round with
  | skip => exact le_rfl
  | quiet => exact le_rfl
  | @visit place other rest longer state left schedule grew pending named there visible arriving
      due transfer enqueued =>
      by_cases same : other = position
      · subst same
        simp
      · simp [Vector.getElem_set_ne _ _ same]

/-- Visits are never taken back. -/
theorem visits_le_of_rounds
    (rounds : Relation.ReflTransGen (Round setting program order) progress next) {position : Nat}
    (inside : position < program.size) : progress.visits[position] ≤ next.visits[position] := by
  induction rounds with
  | refl => exact le_rfl
  | tail _ round ih => exact ih.trans (round.visits_le inside)

/-- The analysis makes all rounds that the limit allows for. -/
theorem run_of_rounds
    (rounds : Relation.ReflTransGen (Round setting program order) progress next)
    (room : ∀ position (inside : position < program.size), next.visits[position] ≤ limit) :
    run setting program order limit progress = run setting program order limit next := by
  induction rounds using Relation.ReflTransGen.head_induction_on with
  | refl => rfl
  | head round rest ih =>
      rw [← ih]
      exact run_of_round round fun position inside =>
        (visits_le_of_rounds rest inside).trans (room position inside)

/-- Where the limit does not allow for all rounds, the analysis gives up on the way. -/
theorem stops_of_rounds
    (rounds : Relation.ReflTransGen (Round setting program order) progress next)
    (visits : ∀ position (inside : position < program.size), progress.visits[position] ≤ limit)
    (full : ¬∀ position (inside : position < program.size), next.visits[position] ≤ limit) :
    ∃ position < program.size, (run setting program order limit progress).entry =
      .error (.visitLimit position (limit + 1)) := by
  induction rounds using Relation.ReflTransGen.head_induction_on with
  | refl => exact absurd visits full
  | @head progress middle round rest ih =>
      by_cases room : ∀ position (inside : position < program.size), middle.visits[position] ≤ limit
      · rw [run_of_round round room]
        exact ih room
      · exact run_of_full round visits room

/-- The history has a record of every visit. -/
def Recorded (progress : Progress program.size) : Prop :=
  ∀ position (inside : position < program.size),
    progress.history.countP (fun visit => visit.block == position) = progress.visits[position]

/-- Every round records the visit it makes. -/
theorem Recorded.round (recorded : Recorded progress)
    (round : Round setting program order progress next) : Recorded next := by
  cases round with
  | skip => exact recorded
  | quiet => exact recorded
  | @visit place other rest longer state left schedule grew pending named there visible arriving
      due transfer enqueued =>
      intro position inside
      rw [List.countP_cons, recorded position inside]
      by_cases same : other = position
      · subst same
        simp
      · simp [Vector.getElem_set_ne _ _ same, same]

variable {entry : Vector State program.size}

/-- The history has a record of every visit, however far the analysis has come. -/
theorem recorded_of_reached (reached : Reached setting program order entry progress) :
    Recorded progress := by
  induction reached with
  | refl =>
      intro position inside
      exact (Vector.getElem_replicate ..).symm
  | tail _ round ih => exact ih.round round

/-- The findings of an analysis count the visits that it took. -/
theorem visits_le_iff_of_reached (reached : Reached setting program order entry progress)
    {bound : Nat} :
    Findings.maxVisits { history := progress.history.reverse, entry := .ok progress.entry } ≤
        bound ↔
      ∀ position (inside : position < program.size), progress.visits[position] ≤ bound := by
  rw [Findings.maxVisits_le_iff]
  refine forall₂_congr fun position inside => ?_
  rw [Findings.visitsOf, List.countP_reverse, recorded_of_reached reached position inside]

section Forward

/-- The blocks from a place on wait to be visited for the first time, and no other block waits. -/
structure Sweeping (order : List Nat) (place : Nat) (progress : Progress program.size) : Prop where
  pending : progress.pending = List.range' place (program.size - place)
  fresh : ∀ later position (inside : position < program.size), place ≤ later →
    order[later]? = some position → progress.visits[position] = 0
  once : ∀ position (inside : position < program.size), progress.visits[position] ≤ 1

/-- At the start all blocks wait to be visited for the first time. -/
theorem sweeping_initial (order : List Nat) (entry : Vector State program.size) :
    Sweeping order 0 (Progress.initial entry) where
  pending := List.range_eq_range'
  fresh _ _ _ _ _ := Vector.getElem_replicate ..
  once _ _ := (Vector.getElem_replicate ..).trans_le (Nat.zero_le 1)

/-- Where all edges lead forward, a round goes on to the next place. -/
theorem Sweeping.round {place : Nat} (sweeping : Sweeping order place progress)
    (ordered : program.reversePostorder = .ok order) (edges : program.EdgesInside)
    (forward : program.Forward order)
    (round : Round setting program order progress next) : Sweeping order (place + 1) next := by
  -- The place that is taken from the worklist is the first one that is left.
  have taken {first : Nat} {rest : List Nat} (pending : progress.pending = first :: rest) :
      first = place ∧ rest = List.range' (place + 1) (program.size - (place + 1)) := by
    rw [sweeping.pending] at pending
    obtain ⟨count, more⟩ : ∃ count, program.size - place = count + 1 :=
      Nat.exists_eq_succ_of_ne_zero fun exhausted => by simp [exhausted] at pending
    rw [more, List.range'_succ] at pending
    cases pending
    refine ⟨rfl, ?_⟩
    congr 1
    omega
  have later {other position : Nat} (inside : position < program.size)
      (behind : place + 1 ≤ other) :
      order[other]? = some position → progress.visits[position] = 0 :=
    sweeping.fresh other position inside (Nat.le_of_succ_le behind)
  cases round with
  | skip pending =>
      exact ⟨(taken pending).2, fun _ _ inside behind => later inside behind, sweeping.once⟩
  | quiet pending =>
      exact ⟨(taken pending).2, fun _ _ inside behind => later inside behind, sweeping.once⟩
  | @visit first position rest longer state left schedule grew pending named inside visible arriving
      due transfer enqueued =>
      obtain ⟨rfl, rfl⟩ := taken pending
      have here := Program.idxOf_of_getElem?_reversePostorder ordered named
      have waiting (succ : Nat) (graph : Graph)
          (edge : succ ∈ WellFormed.succs program.blocks[position] graph) :
          succ < program.size ∧ order.idxOf succ ∈
            List.range' (first + 1) (program.size - (first + 1)) := by
        have there := (edges position inside graph).2 succ edge
        have behind := forward position inside graph succ edge
        have below := Program.idxOf_reversePostorder_lt ordered there
        refine ⟨there, List.mem_range'_1.mpr ?_⟩
        omega
      have same : longer = List.range' (first + 1) (program.size - (first + 1)) := by
        refine Except.ok.inj (enqueued.symm.trans (Progress.enqueue_of_mem ?_ ?_))
        · exact List.pairwise_lt_range'
        · intro succ member
          split at member
          · rcases List.mem_append.mp member with linear | logical
            · exact waiting succ .linear linear
            · exact waiting succ .logical logical
          · cases member
      have unvisited := sweeping.fresh first position inside le_rfl named
      refine ⟨same, ?_, ?_⟩
      · intro other place there behind found
        have different : position ≠ place := by
          rintro rfl
          have again := Program.idxOf_of_getElem?_reversePostorder ordered found
          omega
        simp only [Vector.getElem_set_ne _ _ different]
        exact later there behind found
      · intro place there
        by_cases self : position = place
        · subst self
          simp [unvisited]
        · simp only [Vector.getElem_set_ne _ _ self]
          exact sweeping.once place there

/-- Where all edges lead forward, no block is visited twice. -/
theorem visits_le_one (ordered : program.reversePostorder = .ok order)
    (edges : program.EdgesInside) (forward : program.Forward order)
    (reached : Reached setting program order entry progress) :
    ∀ position (inside : position < program.size), progress.visits[position] ≤ 1 := by
  obtain ⟨place, sweeping⟩ : ∃ place, Sweeping order place progress := by
    induction reached with
    | refl => exact ⟨0, sweeping_initial order entry⟩
    | tail _ round ih =>
        obtain ⟨place, sweeping⟩ := ih
        exact ⟨place + 1, sweeping.round ordered edges forward round⟩
  exact sweeping.once

end Forward

end Analysis

end Hazard

namespace Program.Valid

variable {program : Program}

/-- The analysis of a valid program without a limit that it could run into. -/
theorem analyze_unlimited (valid : program.Valid) (setting : Setting)
    (arguments : ∀ definition ∈ program.pendingArguments, Resolve definition.slots) :
    ∃ order entry final, analyze.start program setting = .ok (order, entry) ∧
      Analysis.Reached setting program order entry final ∧ final.pending = [] ∧
      ∀ limit, State.height < limit → program.analyze setting limit =
        { history := final.history.reverse, entry := .ok final.entry } := by
  obtain ⟨order, entry, started⟩ := valid.exists_start arguments
  obtain ⟨ordered, fits⟩ := of_start started
  have bounded := Analysis.Bounded.initial ordered fits
  obtain ⟨final, reached, done, _⟩ := Analysis.exists_final valid.edges ordered bounded (by
    intro progress _ position inside _ state grew _
    obtain ⟨⟨left, schedule⟩, transfer⟩ :=
      Block.succeeds_transfer (valid.instrs position inside) setting state
    exact ⟨left, schedule, transfer⟩) .refl
  refine ⟨order, entry, final, started, reached, done, fun limit high => ?_⟩
  unfold Program.analyze
  rw [started]
  refine (Analysis.run_of_rounds reached fun position inside => ?_).trans
    (Analysis.run_of_done done)
  exact ((bounded.reached ordered reached).visits_le inside).trans high

/-- A limit decides by the visits that the analysis takes without one. -/
theorem analyze_limit (valid : program.Valid) (setting : Setting)
    (arguments : ∀ definition ∈ program.pendingArguments, Resolve definition.slots) (limit : Nat) :
    ((program.analyze setting (State.height + 1)).maxVisits ≤ limit →
      program.analyze setting limit = program.analyze setting (State.height + 1)) ∧
    (limit < (program.analyze setting (State.height + 1)).maxVisits →
      ∃ position < program.size,
        (program.analyze setting limit).entry = .error (.visitLimit position (limit + 1))) := by
  obtain ⟨order, entry, final, started, reached, done, unlimited⟩ :=
    valid.analyze_unlimited setting arguments
  rw [unlimited _ (Nat.lt_succ_self _), ← not_le, Analysis.visits_le_iff_of_reached reached]
  unfold Program.analyze
  rw [started]
  constructor
  · intro room
    exact (Analysis.run_of_rounds reached room).trans (Analysis.run_of_done done)
  · intro full
    refine Analysis.stops_of_rounds reached (fun position inside => ?_) full
    exact (Vector.getElem_replicate ..).trans_le (Nat.zero_le _)

end Program.Valid

/-- The pass that inserts waits completes on a valid program whose analysis ends. -/
theorem InsertWaits.completes_of_analyze {config : Config} {target : Target} {texts : List String}
    {program : Program} {entry : Vector State program.size}
    (configured : ∀ journal, configure (OptionTable.read name options texts journal).1 = .ok config)
    (valid : program.Valid)
    (analyzed : (program.analyze (config.setting target program) config.maxVisits).entry =
      .ok entry) : ∃ next, pass.Completes target texts program next := by
  have known := Program.every_of_analyze (stable_exist _) Counters.exist_empty
    (fun _ => State.exist_atEntry Counters.exist_empty) analyzed
  obtain ⟨blocks, schedules⟩ := valid.schedules known
  exact ⟨_, completes_of_insert configured (run_insert analyzed schedules)⟩

section Pipeline

variable {target : Target} {before : Session Unit}

/-- Behind the checks of validation the pipeline inserts waits and coalesces delays. -/
theorem run_insertWaitStates_of_checks {options : List String}
    (graphs : WellFormed.checkGraphs before.program = .ok ())
    (blocks : ∀ position (inside : position < before.program.size),
      WellFormed.checkBlock position before.program.blocks[position] = .ok ()) :
    ∃ journal, (insertWaitStates target options).run before =
      (Registry.library.runNames target options [] ["insert-waits", "coalesce-delay-alu"]).run
        { before with journal } := by
  obtain ⟨registered, same⟩ := run_insertWaitStates target options before
  obtain ⟨⟨_, told, _⟩, validated, rfl⟩ :=
    (WellFormed.completes_of_checks graphs blocks : Pass.Completes _ target options _ _) registered
  have named : Registry.library.pass? "well-formed" = some WellFormed.pass := rfl
  obtain ⟨journal, next⟩ := Registry.run_runNames_of_ok named _ validated
  exact ⟨journal, same.trans next⟩

/-- How waits are inserted when no options are given. -/
theorem configure_default (journal : Journal) : InsertWaits.configure
    (OptionTable.read InsertWaits.name InsertWaits.options [] journal).1 =
      .ok { forceWaits := false, maxVisits := 256 } := rfl

/-- A fault of the analysis ends the pipeline. -/
theorem run_insertWaitStates_of_fault (graphs : WellFormed.checkGraphs before.program = .ok ())
    (blocks : ∀ position (inside : position < before.program.size),
      WellFormed.checkBlock position before.program.blocks[position] = .ok ())
    {fault : Fault}
    (stopped : (before.program.analyze
      { target, scalarLoads := before.program.scalarLoads } 256).entry = .error fault) :
    ∃ after, (insertWaitStates target []).run before = (.error (.faulted fault), after) := by
  obtain ⟨journal, same⟩ := run_insertWaitStates_of_checks graphs blocks
  obtain ⟨after, failed⟩ :=
    @InsertWaits.run_of_fault _ _ _ configure_default { before with journal } _ stopped
  exact ⟨after, same.trans (Registry.run_runNames_of_error rfl failed)⟩

/-- On a program that validation accepts and whose pending arguments lie inside of the register
file, the analysis ends under every limit above the height of the order of states. The pipeline
without options succeeds if no block is visited more than 256 times by then, as in any program
without loops, and otherwise it gives up before some block is visited for the 257th time. -/
theorem insertWaitStates_decided_by_visits {validated : Session Unit}
    (accepted : (WellFormed.pass.run target []).run before = (.ok (), validated))
    (arguments : ∀ definition ∈ before.program.pendingArguments,
      definition.register.number + definition.cls.size ≤ slotCount) :
    ∃ unlimited : Findings before.program.size,
      (∀ limit, State.height < limit → before.program.analyze
        { target, scalarLoads := before.program.scalarLoads } limit = unlimited) ∧
      Succeeds unlimited.entry ∧
      (∀ order, before.program.reversePostorder = .ok order → before.program.Forward order →
        unlimited.maxVisits ≤ 1) ∧
      (unlimited.maxVisits ≤ 256 →
        ∃ after, (insertWaitStates target []).run before = (.ok (), after)) ∧
      (256 < unlimited.maxVisits →
        ∃ position < before.program.size, ∃ after, (insertWaitStates target []).run before =
          (.error (.faulted (.visitLimit position 257)), after)) := by
  let config : InsertWaits.Config := { forceWaits := false, maxVisits := 256 }
  have valid := WellFormed.valid_of_run accepted
  obtain ⟨graphs, blocks⟩ := WellFormed.checks_of_run accepted
  have resolve : ∀ definition ∈ before.program.pendingArguments, Resolve definition.slots :=
    fun definition member => resolve_slotsFrom (arguments definition member)
  obtain ⟨order, _, final, started, reached, _, ends⟩ :=
    valid.analyze_unlimited (config.setting target before.program) resolve
  obtain ⟨within, beyond⟩ :=
    valid.analyze_limit (config.setting target before.program) resolve 256
  rw [ends _ (Nat.lt_succ_self _)] at within beyond
  refine ⟨_, ends, succeeds_ok _, ?_, fun few => ?_, fun many => ?_⟩
  · intro other ordered forward
    cases ordered.symm.trans (Program.of_start started).1
    exact (Analysis.visits_le_iff_of_reached reached).mpr
      (Analysis.visits_le_one ordered valid.edges forward reached)
  · obtain ⟨next, completes⟩ := InsertWaits.completes_of_analyze configure_default valid
      (congrArg Findings.entry (within few))
    obtain ⟨journal, same⟩ := run_insertWaitStates_of_checks graphs blocks
    obtain ⟨between, inserted, _⟩ := completes journal
    have named : Registry.library.pass? "insert-waits" = some InsertWaits.pass := rfl
    obtain ⟨reported, next⟩ := Registry.run_runNames_of_ok named ["coalesce-delay-alu"] inserted
    obtain ⟨after, coalesced⟩ := CoalesceDelays.run_pass target { between with journal := reported }
    have last : Registry.library.pass? "coalesce-delay-alu" = some CoalesceDelays.pass := rfl
    obtain ⟨_, done⟩ := Registry.run_runNames_of_ok last [] coalesced
    exact ⟨_, same.trans (next.trans done)⟩
  · obtain ⟨position, inside, stopped⟩ := beyond many
    exact ⟨position, inside, run_insertWaitStates_of_fault graphs blocks stopped⟩

end Pipeline

namespace LoadInBranch

/-- A register is loaded in one of two branches and exported where they meet. -/
def program : Program where
  blocks :=
    #[{ kind := .flag 0, linearSuccs := [1, 2], logicalSuccs := [1, 2] },
      { kind := .flag 0,
        instrs := [{ opcode := .bufferLoadDword,
                     operands := [.reg (.scalar 4) (.scalar 4)],
                     definitions := [⟨⟨256⟩, .vector 1⟩] }],
        linearPreds := [0], linearSuccs := [2], logicalPreds := [0], logicalSuccs := [2] },
      { kind := .flag 0,
        instrs := [{ opcode := .exp,
                     operands := [.reg ⟨256⟩ (.vector 1)],
                     payload := .exportTo 0 1 false true }],
        linearPreds := [0, 1], logicalPreds := [0, 1] }]
  pendingArguments := [⟨⟨511⟩, .vector 1⟩]

/-- The program before anything was written to the journal. -/
def session : Session Unit := { program, journal := {}, data := () }

/-- The branches come between the block they leave and the one they meet in. -/
theorem ordered : program.reversePostorder = .ok [0, 1, 2] := by
  simp [program, Program.reversePostorder, Program.linearEdgesInside, Program.linearSuccessors,
    Search.run, Program.size, List.range_succ]

/-- All edges of the program lead forward. -/
theorem forward : program.Forward [0, 1, 2] := by
  intro position inside graph
  have small : position < 3 := inside
  obtain rfl | rfl | rfl : position = 0 ∨ position = 1 ∨ position = 2 := by omega
  all_goals cases graph <;> decide +revert

end LoadInBranch

open LoadInBranch in
/-- Validation accepts the branch, and waits are inserted into it. -/
theorem load_in_branch_within_visit_limit :
    (WellFormed.pass.run (.ofGeneration .gfx11) []).run session = (.ok (), session) ∧
      ∃ after, (insertWaitStates (.ofGeneration .gfx11) []).run session = (.ok (), after) := by
  have accepted : (WellFormed.pass.run (.ofGeneration .gfx11) []).run session =
      (.ok (), session) := rfl
  obtain ⟨unlimited, _, _, once, within, _⟩ :=
    insertWaitStates_decided_by_visits accepted (by decide)
  exact ⟨accepted, within ((once _ ordered forward).trans (by decide))⟩

end WaveHazard
