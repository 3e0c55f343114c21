import WaveHazard.Hazard.Analysis
import WaveHazard.Proofs.Outcome

/-! # Steps of the analysis

How an analysis runs, one visit after the other: it starts with every block in the worklist, a block
that is due leaves it and its successors enter it unless it leaves what it left before, and it ends
when nothing is left in it. What joins and runs of blocks keep, all states that it finds have.
-/

namespace WaveHazard

open Machine Hazard

namespace Hazard

/-- A property of states that joins and runs of blocks keep. -/
structure Stable (setting : Setting) (holds : State → Prop) : Prop where
  join : ∀ {state other : State} {logical : Bool},
    holds state → holds other → holds (state.join other logical)
  transfer : ∀ {block : Block} {state left : State} {schedule : Schedule},
    holds state → block.transfer setting state = .ok (left, schedule) → holds left

/-- A property of states that joins and runs of the blocks of a program keep. -/
structure StableOn (setting : Setting) (program : Program) (holds : State → Prop) : Prop where
  join : ∀ {state other : State} {logical : Bool},
    holds state → holds other → holds (state.join other logical)
  transfer : ∀ {position : Nat} (inside : position < program.size) {state left : State}
    {schedule : Schedule}, holds state →
      program.blocks[position].transfer setting state = .ok (left, schedule) → holds left

/-- What every block keeps is kept by the blocks of a program. -/
theorem Stable.on {setting : Setting} {holds : State → Prop} (stable : Stable setting holds)
    (program : Program) : StableOn setting program holds where
  join := stable.join
  transfer _ := stable.transfer

namespace Progress

/-- All states so far have a property. -/
structure Every {size : Nat} (holds : State → Prop) (progress : Progress size) : Prop where
  entry : ∀ position (inside : position < size), holds progress.entry[position]
  exit : ∀ position (inside : position < size), holds progress.exit[position]

variable {size : Nat} {setting : Setting} {holds : State → Prop} {progress : Progress size}

/-- What joins keep, the state with which a block is entered has. -/
theorem arriving_keeps (join : ∀ {state other : State} {logical : Bool},
      holds state → holds other → holds (state.join other logical))
    (exits : ∀ position (inside : position < size), holds progress.exit[position])
    {block : Block} {state joined : State} {grew : Bool} (before : holds state)
    (arriving : progress.arriving block state = .ok (joined, grew)) : holds joined := by
  have joinPreds {logical : Bool} {preds : List Nat} {start joined : State × Bool}
      (before : holds start.1)
      (joining : Progress.joinPreds progress.exit logical preds start = .ok joined) :
      holds joined.1 := by
    refine Outcome.foldlM_keeps (fun joined => holds joined.1) joining before ?_
    intro pred _ ⟨state, grew⟩ next known stepped
    dsimp only at stepped
    split at stepped
    · rename_i inside
      cases stepped
      exact join known (exits pred inside)
    · cases stepped
  obtain ⟨middle, linear, logical⟩ := Outcome.bind_eq_ok.mp arriving
  exact joinPreds (joinPreds before linear) logical

end Progress

namespace Analysis

variable {setting : Setting} {program : Program} {order : List Nat} {limit : Nat}
  {progress : Progress program.size}

/-- The analysis ends when nothing is left to look at. -/
theorem run_of_done (done : progress.pending = []) :
    run setting program order limit progress =
      { history := progress.history.reverse, entry := .ok progress.entry } := by
  unfold run
  split
  · rfl
  · rename_i place rest pending
    rw [done] at pending
    cases pending

/-- Without pending places the entry states are those reached so far. -/
theorem entry_run_of_done (done : progress.pending = []) :
    (run setting program order limit progress).entry = .ok progress.entry := by
  rw [run_of_done done]

/-- A block that is due for a visit is not passed over. -/
theorem not_quiet_of_due {visits : Nat} {grew : Bool} (due : visits = 0 ∨ grew = true) :
    ¬(visits ≠ 0 ∧ (!grew) = true) := by
  rcases due with rfl | rfl <;> simp

/-- A block that is due is visited when the limit allows for one more visit. -/
theorem run_of_visit {place position : Nat} {rest longer : List Nat} {state left : State}
    {schedule : Schedule} {grew : Bool} (pending : progress.pending = place :: rest)
    (named : order[place]? = some position) (inside : position < program.size)
    (visible : program.blocks[position].isExempt = false)
    (arriving : progress.arriving program.blocks[position] progress.entry[position] =
      .ok (state, grew))
    (due : progress.visits[position] = 0 ∨ grew = true) (room : progress.visits[position] < limit)
    (transfer : program.blocks[position].transfer setting state = .ok (left, schedule))
    (enqueued : Progress.enqueue program.size order
      (if progress.visits[position] = 0 ∨ left ≠ progress.exit[position] then
        program.blocks[position].linearSuccs ++ program.blocks[position].logicalSuccs else [])
      rest = .ok longer) :
    run setting program order limit progress =
      run setting program order limit
        { entry := progress.entry.set position state,
          exit := progress.exit.set position left,
          visits := progress.visits.set position (progress.visits[position] + 1),
          pending := longer,
          history := { block := position, state } :: progress.history } := by
  have visits := not_quiet_of_due due
  rw [run]
  split
  · rename_i ended
    cases ended.symm.trans pending
  · rename_i first others found
    cases found.symm.trans pending
    simp only [named, inside, visible, arriving, dif_pos, Bool.false_eq_true, if_false, visits,
      room, transfer, enqueued]

/-- What joins and runs of blocks keep is kept until the worklist is empty. -/
theorem every_run {holds : State → Prop} {entry : Vector State program.size}
    (stable : StableOn setting program holds) (every : progress.Every holds)
    (ended : (run setting program order limit progress).entry = .ok entry) :
    ∀ position (inside : position < program.size), holds entry[position] := by
  fun_induction run setting program order limit progress with
  | case1 progress pending =>
      cases ended
      exact every.entry
  | case2 => cases ended
  | case3 progress place rest pending position named inside block exempt ih =>
      exact ih ⟨every.entry, every.exit⟩ ended
  | case4 => cases ended
  | case5 progress place rest pending position named inside block exempt state grew arriving quiet
      ih => exact ih ⟨every.entry, every.exit⟩ ended
  | case6 => cases ended
  | case7 => cases ended
  | case8 progress place rest pending position named inside block exempt state grew arriving busy
      room history left schedule transfer succs longer enqueued ih =>
      have entered : holds state :=
        Progress.arriving_keeps stable.join every.exit (every.entry position inside) arriving
      refine ih ⟨fun other there => ?_, fun other there => ?_⟩ ended
      · rw [Vector.getElem_set]
        split
        · exact entered
        · exact every.entry other there
      · rw [Vector.getElem_set]
        split
        · exact stable.transfer inside entered transfer
        · exact every.exit other there
  | case9 => cases ended
  | case10 => cases ended

end Analysis

end Hazard

namespace Program

variable {setting : Setting} {limit : Nat}

/-- All states that the analysis finds have a property that joins and runs of the blocks of the
program keep, if the states that it starts from have it. -/
theorem every_of_stableOn {program : Program} {holds : State → Prop}
    {entry : Vector State program.size} (stable : StableOn setting program holds) (blank : holds ∅)
    (seed : ∀ seeded, State.atEntry setting.generation ∅ program = .ok seeded → holds seeded)
    (analyzed : (program.analyze setting limit).entry = .ok entry) :
    ∀ position (inside : position < program.size), holds entry[position] := by
  have blanks (position : Nat) (inside : position < program.size) :
      holds (Vector.replicate program.size (∅ : State))[position] := by
    rw [Vector.getElem_replicate]
    exact blank
  unfold analyze at analyzed
  split at analyzed
  · cases analyzed
  · rename_i order states started
    refine Analysis.every_run stable ⟨?_, blanks⟩ analyzed
    obtain ⟨sorted, _, starting⟩ := Outcome.bind_eq_ok.mp started
    dsimp only at starting
    split at starting
    · obtain ⟨seeded, atEntry, same⟩ := Outcome.bind_eq_ok.mp starting
      cases same
      intro position inside
      rw [Vector.getElem_set]
      split
      · exact seed seeded atEntry
      · exact blanks position inside
    · cases starting
      exact blanks

/-- All states that the analysis finds have a property that joins and runs of blocks keep, if the
states that it starts from have it. -/
theorem every_of_analyze {program : Program} {holds : State → Prop}
    {entry : Vector State program.size} (stable : Stable setting holds) (blank : holds ∅)
    (seed : ∀ seeded, State.atEntry setting.generation ∅ program = .ok seeded → holds seeded)
    (analyzed : (program.analyze setting limit).entry = .ok entry) :
    ∀ position (inside : position < program.size), holds entry[position] :=
  every_of_stableOn (stable.on program) blank seed analyzed

/-- An analysis starts from the block order and from what was pending at the entry of the
program. -/
theorem start_of_nonempty {program : Program} {order : List Nat} {seeded : State}
    (ordered : program.reversePostorder = .ok order) (nonempty : 0 < program.size)
    (atEntry : State.atEntry setting.generation ∅ program = .ok seeded) :
    analyze.start program setting =
      .ok (order, (Vector.replicate program.size ∅).set 0 seeded) := by
  unfold analyze.start
  simp only [ordered, nonempty, atEntry, dif_pos]
  rfl

/-- The analysis runs from the state at the entry and the first place. -/
theorem analyze_of_start {program : Program} {order : List Nat} {seeded : State}
    (ordered : program.reversePostorder = .ok order) (nonempty : 0 < program.size)
    (atEntry : State.atEntry setting.generation ∅ program = .ok seeded) :
    program.analyze setting limit = Analysis.run setting program order limit
      { entry := (Vector.replicate program.size ∅).set 0 seeded,
        exit := Vector.replicate program.size ∅,
        visits := Vector.replicate program.size 0,
        pending := List.range program.size,
        history := [] } := by
  unfold analyze
  rw [start_of_nonempty ordered nonempty atEntry]

/-- The only block of a program without edges is visited once. -/
theorem analyze_single {program : Program} {block : Block}
    (alone : block.linearPreds = [] ∧ block.linearSuccs = [] ∧
      block.logicalPreds = [] ∧ block.logicalSuccs = []) (visible : block.isExempt = false)
    (room : 0 < limit) {seeded left : State} {schedule : Schedule}
    (atEntry : State.atEntry setting.generation ∅ { program with blocks := #[block] } = .ok seeded)
    (transfer : block.transfer setting seeded = .ok (left, schedule)) :
    (Program.analyze { program with blocks := #[block] } setting limit).entry =
      .ok #v[seeded] := by
  obtain ⟨linearPreds, linearSuccs, logicalPreds, logicalSuccs⟩ := alone
  have ordered : Program.reversePostorder { program with blocks := #[block] } = .ok [0] := by
    simp [reversePostorder, linearEdgesInside, linearSuccessors, linearSuccs, Search.run, size]
  have arriving (progress : Progress 1) : progress.arriving block seeded = .ok (seeded, false) := by
    unfold Progress.arriving
    rw [linearPreds, logicalPreds]
    rfl
  have enqueued : Progress.enqueue 1 [0]
      (if 0 = 0 ∨ left ≠ ∅ then block.linearSuccs ++ block.logicalSuccs else []) [] = .ok [] := by
    rw [linearSuccs, logicalSuccs]
    rfl
  rw [analyze_of_start ordered Nat.one_pos atEntry,
    @Analysis.run_of_visit setting { program with blocks := #[block] } [0] limit _ 0 0 [] [] seeded
      left schedule false rfl rfl Nat.one_pos visible (arriving _) (.inl rfl) (by exact room)
      transfer (by exact enqueued)]
  exact Analysis.entry_run_of_done rfl

end Program

end WaveHazard
