import WaveHazard.Hazard.Analysis
import WaveHazard.Proofs.BlockOrder
import WaveHazard.Proofs.JoinOrder
import WaveHazard.Proofs.Rewriting
import WaveHazard.Proofs.Visits

/-! # The analysis ends in a post-fixpoint

The states at the start of the blocks, once the worklist is empty, absorb what every predecessor
leaves when it is run from its own state, and the entry of the program absorbs what an earlier
shader part left pending.

The invariant of the worklist is that a block which has not absorbed what its predecessors leave
now is waiting in it. No property of the transfer function is needed: a block whose predecessor
leaves something else than before is put back into the worklist, whatever changed.
-/

namespace WaveHazard

open Machine Hazard Index

namespace Hazard

namespace Progress

variable {size : Nat}

/-- Joining predecessors keeps what was absorbed, absorbs all of them, and reports every change. -/
theorem absorbs_of_joinPreds {exit : Vector State size} {logical : Bool} {preds : List Nat}
    {state joined : State} {grew grewAfter : Bool}
    (joining : joinPreds exit logical preds (state, grew) = .ok (joined, grewAfter)) :
    (∀ other logical, state.Absorbs other logical → joined.Absorbs other logical) ∧
      (∀ pred (inside : pred < size), pred ∈ preds → joined.Absorbs exit[pred] logical) ∧
      (grewAfter = false → grew = false ∧ joined = state) := by
  induction preds generalizing state grew with
  | nil =>
      cases joining
      exact ⟨fun _ _ absorbs => absorbs, fun _ _ member => absurd member List.not_mem_nil,
        fun same => ⟨same, rfl⟩⟩
  | cons first rest ih =>
      obtain ⟨⟨next, grewNext⟩, stepped, remaining⟩ := Outcome.bind_eq_ok.mp joining
      dsimp only at stepped
      split at stepped
      · cases stepped
        obtain ⟨kept, absorbed, reported⟩ := ih remaining
        refine ⟨fun other along absorbs => kept _ _ (absorbs.join _ _), ?_, ?_⟩
        · intro pred inside member
          rcases List.mem_cons.mp member with rfl | later
          · exact kept _ _ (State.absorbs_join _ _ _)
          · exact absorbed pred inside later
        · intro still
          obtain ⟨quiet, same⟩ := reported still
          rw [Bool.or_eq_false_iff] at quiet
          exact ⟨quiet.1, same.trans (State.join_eq_left_iff.mpr quiet.2)⟩
      · cases stepped

/-- The state with which a block is entered absorbs what its predecessors leave along both
graphs. -/
theorem absorbs_of_arriving {progress : Progress size} {block : Block} {state joined : State}
    {grew : Bool} (arriving : progress.arriving block state = .ok (joined, grew)) :
    (∀ other logical, state.Absorbs other logical → joined.Absorbs other logical) ∧
      (∀ graph pred (inside : pred < size), pred ∈ WellFormed.preds block graph →
        joined.Absorbs progress.exit[pred] graph.isLogical) ∧
      (grew = false → joined = state) := by
  obtain ⟨⟨middle, grewLinear⟩, linear, logical⟩ := Outcome.bind_eq_ok.mp arriving
  obtain ⟨keptLinear, absorbedLinear, reportedLinear⟩ := absorbs_of_joinPreds linear
  obtain ⟨keptLogical, absorbedLogical, reportedLogical⟩ := absorbs_of_joinPreds logical
  refine ⟨fun other along absorbs => keptLogical _ _ (keptLinear _ _ absorbs), ?_, ?_⟩
  · intro graph pred inside member
    cases graph with
    | linear => exact keptLogical _ _ (absorbedLinear pred inside member)
    | logical => exact absorbedLogical pred inside member
  · intro quiet
    obtain ⟨quietLinear, sameLogical⟩ := reportedLogical quiet
    exact sameLogical.trans (reportedLinear quietLinear).2

/-- Inserting a place keeps the places that were there. -/
theorem mem_insertPlace {place other : Nat} {pending : List Nat} :
    other ∈ insertPlace place pending ↔ other = place ∨ other ∈ pending := by
  induction pending with
  | nil => simp [insertPlace]
  | cons first rest ih =>
      unfold insertPlace
      split
      · simp
      · split
        · rename_i same
          subst same
          simp
        · rw [List.mem_cons, ih, List.mem_cons]
          tauto

/-- The worklist keeps its places and has those of the successors. -/
theorem mem_of_enqueue {order succs pending longer : List Nat}
    (enqueued : enqueue size order succs pending = .ok longer) :
    (∀ place ∈ pending, place ∈ longer) ∧ ∀ succ ∈ succs, order.idxOf succ ∈ longer := by
  induction succs generalizing pending with
  | nil =>
      cases enqueued
      exact ⟨fun _ member => member, fun _ member => absurd member List.not_mem_nil⟩
  | cons first rest ih =>
      obtain ⟨next, inserted, remaining⟩ := Outcome.bind_eq_ok.mp enqueued
      dsimp only at inserted
      split at inserted
      · cases inserted
        obtain ⟨kept, queued⟩ := ih remaining
        refine ⟨fun place member => kept place (mem_insertPlace.mpr (.inr member)), ?_⟩
        intro succ member
        rcases List.mem_cons.mp member with rfl | later
        · exact kept _ (mem_insertPlace.mpr (.inl rfl))
        · exact queued succ later
      · cases inserted

end Progress

namespace Analysis

variable {setting : Setting} {program : Program} {order : List Nat} {limit : Nat}

/-- The block at a position has absorbed what its predecessors leave now. -/
def Settled (progress : Progress program.size) (position : Nat) (inside : position < program.size) :
    Prop :=
  progress.visits[position] ≠ 0 ∧
    ∀ graph pred (there : pred < program.size),
      pred ∈ WellFormed.preds program.blocks[position] graph →
        progress.entry[position].Absorbs progress.exit[pred] graph.isLogical

/-- What holds whenever a block is taken from the worklist. -/
structure Consistent (setting : Setting) (order : List Nat) (seeded : State)
    (progress : Progress program.size) : Prop where
  /-- A block that was visited leaves what its state makes it leave. -/
  leaves : ∀ position (inside : position < program.size),
    program.blocks[position].isExempt = false → progress.visits[position] ≠ 0 →
      ∃ schedule, program.blocks[position].transfer setting progress.entry[position] =
        .ok (progress.exit[position], schedule)
  /-- A block that is exempt or was not visited leaves nothing. -/
  blank : ∀ position (inside : position < program.size),
    program.blocks[position].isExempt = true ∨ progress.visits[position] = 0 →
      progress.exit[position] = ∅
  /-- A block that has not settled waits in the worklist. -/
  waits : ∀ position (inside : position < program.size),
    program.blocks[position].isExempt = false →
      order.idxOf position ∈ progress.pending ∨ Settled progress position inside
  /-- The entry of the program absorbs what was pending before it. -/
  seed : ∀ (inside : 0 < program.size) logical, progress.entry[0].Absorbs seeded logical

/-- A block other than the one that was taken from the worklist has settled or is still in it. -/
theorem Consistent.waits_rest {seeded : State} {progress : Progress program.size}
    {place position other : Nat} {rest : List Nat}
    (consistent : Consistent setting order seeded progress)
    (pending : progress.pending = place :: rest)
    (ordered : program.reversePostorder = .ok order) (named : order[place]? = some position)
    (different : position ≠ other) (inside : other < program.size)
    (visible : program.blocks[other].isExempt = false) :
    order.idxOf other ∈ rest ∨ Settled progress other inside := by
  rcases consistent.waits other inside visible with waiting | settled
  · rw [pending, List.mem_cons] at waiting
    rcases waiting with first | later
    · have found := Program.getElem?_idxOf_reversePostorder ordered inside
      rw [first, named, Option.some.injEq] at found
      exact absurd found different
    · exact .inl later
  · exact .inr settled

/-- A block that has settled may leave the worklist. -/
theorem Consistent.drop {seeded : State} {progress : Progress program.size} {place position : Nat}
    {rest : List Nat} (consistent : Consistent setting order seeded progress)
    (pending : progress.pending = place :: rest)
    (ordered : program.reversePostorder = .ok order) (named : order[place]? = some position)
    (done : ∀ inside : position < program.size, program.blocks[position].isExempt = false →
      Settled progress position inside) :
    Consistent setting order seeded { progress with pending := rest } where
  leaves := consistent.leaves
  blank := consistent.blank
  waits := by
    intro other inside visible
    by_cases same : position = other
    · subst same
      exact .inr (done inside visible)
    · exact consistent.waits_rest pending ordered named same inside visible
  seed := consistent.seed

/-- A successor of a block that is visited is put into the worklist, or sees no difference. -/
theorem mem_or_same_of_enqueue {progress : Progress program.size} {position other : Nat}
    {rest longer : List Nat} {left : State} (symmetric : WellFormed.Symmetric program)
    (inside : position < program.size)
    (enqueued : Progress.enqueue program.size order
      (if progress.visits[position] = 0 ∨ left ≠ progress.exit[position] then
        program.blocks[position].linearSuccs ++ program.blocks[position].logicalSuccs else [])
      rest = .ok longer) (there : other < program.size) {graph : Graph}
    (edge : position ∈ WellFormed.preds program.blocks[other] graph) :
    order.idxOf other ∈ longer ∨ left = progress.exit[position] := by
  obtain ⟨_, queued⟩ := Progress.mem_of_enqueue enqueued
  by_cases changed : progress.visits[position] = 0 ∨ left ≠ progress.exit[position]
  · rw [if_pos changed] at queued
    obtain ⟨_, back⟩ := symmetric.preds there edge
    refine .inl (queued other ?_)
    cases graph
    · exact List.mem_append_left _ back
    · exact List.mem_append_right _ back
  · rw [not_or, not_not] at changed
    exact .inr changed.2

/-- A visit keeps the invariant: the successors are put into the worklist unless the block leaves
what it left before. -/
theorem Consistent.visit {seeded : State} {progress : Progress program.size} {place position : Nat}
    {rest longer : List Nat} {state left : State} {schedule : Schedule} {grew : Bool}
    (consistent : Consistent setting order seeded progress)
    (symmetric : WellFormed.Symmetric program)
    (pending : progress.pending = place :: rest)
    (ordered : program.reversePostorder = .ok order) (named : order[place]? = some position)
    (inside : position < program.size)
    (arriving : progress.arriving program.blocks[position] progress.entry[position] =
      .ok (state, grew))
    (transfer : program.blocks[position].transfer setting state = .ok (left, schedule))
    (visible : program.blocks[position].isExempt = false)
    (enqueued : Progress.enqueue program.size order
      (if progress.visits[position] = 0 ∨ left ≠ progress.exit[position] then
        program.blocks[position].linearSuccs ++ program.blocks[position].logicalSuccs else [])
      rest = .ok longer) (history : List Visit) :
    Consistent setting order seeded
      { entry := progress.entry.set position state,
        exit := progress.exit.set position left,
        visits := progress.visits.set position (progress.visits[position] + 1),
        pending := longer,
        history } := by
  obtain ⟨kept, absorbed, _⟩ := Progress.absorbs_of_arriving arriving
  obtain ⟨stays, _⟩ := Progress.mem_of_enqueue enqueued
  constructor
  · intro other there otherVisible visited
    by_cases same : position = other
    · subst same
      exact ⟨schedule, by simpa using transfer⟩
    · simp only [Vector.getElem_set_ne _ _ same] at visited ⊢
      exact consistent.leaves other there otherVisible visited
  · intro other there nothing
    by_cases same : position = other
    · subst same
      simp [visible] at nothing
    · simp only [Vector.getElem_set_ne _ _ same] at nothing ⊢
      exact consistent.blank other there nothing
  · intro other there otherVisible
    by_cases waiting : order.idxOf other ∈ longer
    · exact .inl waiting
    · have before (different : position ≠ other) : Settled progress other there := by
        rcases consistent.waits_rest pending ordered named different there otherVisible with
          later | settled
        · exact absurd (stays _ later) waiting
        · exact settled
      refine .inr ⟨?_, ?_⟩
      · by_cases same : position = other
        · subst same
          simp
        · simp only [Vector.getElem_set_ne _ _ same]
          exact (before same).1
      · intro graph pred predInside edge
        have leaves : (progress.exit.set position left)[pred] = progress.exit[pred] := by
          by_cases self : position = pred
          · subst self
            rcases mem_or_same_of_enqueue symmetric inside enqueued there edge with again | quiet
            · exact absurd again waiting
            · simp [quiet]
          · rw [Vector.getElem_set_ne _ _ self]
        rw [leaves]
        by_cases same : position = other
        · subst same
          rw [Vector.getElem_set_self]
          exact absorbed graph pred predInside edge
        · rw [Vector.getElem_set_ne _ _ same]
          exact (before same).2 graph pred predInside edge
  · intro nonempty logical
    by_cases same : position = 0
    · subst same
      rw [Vector.getElem_set_self]
      exact kept _ _ (consistent.seed nonempty logical)
    · rw [Vector.getElem_set_ne _ _ same]
      exact consistent.seed nonempty logical

/-- Once the worklist is empty every block has settled. -/
theorem consistent_run {seeded : State} {progress : Progress program.size}
    {entry : Vector State program.size} (symmetric : WellFormed.Symmetric program)
    (ordered : program.reversePostorder = .ok order)
    (consistent : Consistent setting order seeded progress)
    (ended : (run setting program order limit progress).entry = .ok entry) :
    ∃ final : Progress program.size, final.pending = [] ∧ final.entry = entry ∧
      Consistent setting order seeded final := by
  fun_induction run setting program order limit progress with
  | case1 progress pending =>
      cases ended
      exact ⟨progress, pending, rfl, consistent⟩
  | case2 => cases ended
  | case3 progress place rest pending position named inside block exempt ih =>
      refine ih (consistent.drop pending ordered named ?_) ended
      intro _ visible
      exact absurd (exempt.symm.trans visible) (by decide)
  | case4 => cases ended
  | case5 progress place rest pending position named inside block exempt state grew arriving quiet
      ih =>
      refine ih (consistent.drop pending ordered named ?_) ended
      intro _ _
      obtain ⟨_, absorbed, reported⟩ := Progress.absorbs_of_arriving arriving
      have same := reported (by simpa using quiet.2)
      exact ⟨quiet.1, fun graph pred there edge => same ▸ absorbed graph pred there edge⟩
  | case6 => cases ended
  | case7 => cases ended
  | case8 progress place rest pending position named inside block exempt state grew arriving busy
      room history left schedule transfer succs longer enqueued ih =>
      exact ih (consistent.visit symmetric pending ordered named inside arriving transfer
        (eq_false_of_ne_true exempt) enqueued history) ended
  | case9 => cases ended
  | case10 => cases ended

/-- Before the first visit every block waits in the worklist. -/
theorem consistent_start (seeded : State) (ordered : program.reversePostorder = .ok order)
    (entry : Vector State program.size)
    (seed : ∀ inside : 0 < program.size, entry[0] = seeded) :
    Consistent setting order seeded
      { entry,
        exit := Vector.replicate program.size ∅,
        visits := Vector.replicate program.size 0,
        pending := List.range program.size,
        history := [] } where
  leaves := by
    intro position inside _ visited
    simp at visited
  blank := by
    intro position inside _
    simp
  waits := by
    intro position inside _
    exact .inl (List.mem_range.mpr (Program.idxOf_reversePostorder_lt ordered inside))
  seed := by
    intro inside logical
    rw [seed inside]
    exact State.absorbs_self seeded logical

end Analysis

end Hazard

namespace Program

/-- What a block leaves when it is run from its state: an exempt block leaves nothing. -/
def leaving (program : Program) (setting : Setting) (entry : Vector State program.size)
    (position : Nat) (inside : position < program.size) : Except Fault State :=
  if program.blocks[position].isExempt then .ok ∅
  else (program.blocks[position].transfer setting entry[position]).map Prod.fst

/-- An analysis that ended was started from the block order and from what was pending at the entry
of the program, and ended with all blocks settled. -/
theorem consistent_of_analyze {program : Program} {setting : Setting} {limit : Nat}
    {entry : Vector State program.size} (symmetric : WellFormed.Symmetric program)
    (analyzed : (program.analyze setting limit).entry = .ok entry) :
    ∃ (order : List Nat) (seeded : State) (final : Progress program.size),
      (0 < program.size → State.atEntry setting.generation ∅ program = .ok seeded) ∧
        final.pending = [] ∧ final.entry = entry ∧
        Analysis.Consistent setting order seeded final := by
  unfold analyze at analyzed
  split at analyzed
  · cases analyzed
  · rename_i order states started
    obtain ⟨sorted, ordered, starting⟩ := Outcome.bind_eq_ok.mp started
    dsimp only at starting
    split at starting
    · rename_i nonempty
      obtain ⟨seeded, atEntry, same⟩ := Outcome.bind_eq_ok.mp starting
      cases same
      obtain ⟨final, ended, found, consistent⟩ := Analysis.consistent_run symmetric ordered
        (Analysis.consistent_start seeded ordered _ (by simp)) analyzed
      exact ⟨order, seeded, final, fun _ => atEntry, ended, found, consistent⟩
    · rename_i empty
      cases starting
      obtain ⟨final, ended, found, consistent⟩ := Analysis.consistent_run symmetric ordered
        (Analysis.consistent_start ∅ ordered _ (fun inside => absurd inside empty)) analyzed
      exact ⟨order, ∅, final, fun inside => absurd inside empty, ended, found, consistent⟩

/-- States at the start of the blocks from which no block leaves anything that its successors have
not absorbed. -/
structure PostFixpoint (program : Program) (setting : Setting)
    (entry : Vector State program.size) : Prop where
  /-- Every block can be run from its state. -/
  leaves : ∀ position (inside : position < program.size),
    ∃ left, program.leaving setting entry position inside = .ok left
  /-- A block has absorbed what its predecessors leave. -/
  absorbs : ∀ position (inside : position < program.size),
    program.blocks[position].isExempt = false → ∀ graph pred (there : pred < program.size),
      pred ∈ WellFormed.preds program.blocks[position] graph → ∀ left,
        program.leaving setting entry pred there = .ok left →
          entry[position].Absorbs left graph.isLogical
  /-- The entry of the program has absorbed what was pending before it. -/
  seed : ∀ inside : 0 < program.size, ∃ seeded,
    State.atEntry setting.generation ∅ program = .ok seeded ∧
      ∀ logical, entry[0].Absorbs seeded logical

/-- The analysis ends in a post-fixpoint. -/
theorem postFixpoint_of_analyze {program : Program} {setting : Setting} {limit : Nat}
    {entry : Vector State program.size} (symmetric : WellFormed.Symmetric program)
    (analyzed : (program.analyze setting limit).entry = .ok entry) :
    PostFixpoint program setting entry := by
  obtain ⟨order, seeded, final, atEntry, ended, rfl, consistent⟩ :=
    consistent_of_analyze symmetric analyzed
  have settled (position : Nat) (inside : position < program.size)
      (visible : program.blocks[position].isExempt = false) :
      Analysis.Settled final position inside := by
    rcases consistent.waits position inside visible with waiting | settled
    · rw [ended] at waiting
      exact absurd waiting List.not_mem_nil
    · exact settled
  have exits (position : Nat) (inside : position < program.size) :
      program.leaving setting final.entry position inside = .ok final.exit[position] := by
    unfold leaving
    cases visible : program.blocks[position].isExempt with
    | true => rw [if_pos rfl, consistent.blank position inside (.inl visible)]
    | false =>
        obtain ⟨schedule, transfer⟩ :=
          consistent.leaves position inside visible (settled position inside visible).1
        rw [if_neg Bool.false_ne_true, transfer]
        rfl
  constructor
  · intro position inside
    exact ⟨_, exits position inside⟩
  · intro position inside visible graph pred there edge left leaves
    rw [exits pred there] at leaves
    cases leaves
    exact (settled position inside visible).2 graph pred there edge
  · intro inside
    exact ⟨seeded, atEntry inside, consistent.seed inside⟩

/-- Rewriting a block that is not exempt runs it from the same state as the analysis and leaves the
same state. -/
theorem PostFixpoint.schedule {program : Program} {setting : Setting}
    {entry : Vector State program.size} (stable : PostFixpoint program setting entry)
    {position : Nat} (inside : position < program.size)
    (visible : program.blocks[position].isExempt = false) :
    ∃ left schedule, program.leaving setting entry position inside = .ok left ∧
      program.blocks[position].transfer setting entry[position] = .ok (left, schedule) ∧
      InsertWaits.scheduleBlock setting program.blocks[position] entry[position] =
        schedule.lower setting.generation := by
  obtain ⟨left, leaves⟩ := stable.leaves position inside
  have ran := leaves
  unfold leaving at ran
  rw [visible, if_neg Bool.false_ne_true] at ran
  obtain ⟨⟨final, schedule⟩, transfer, rfl⟩ := Outcome.map_eq_ok.mp ran
  refine ⟨final, schedule, leaves, transfer, ?_⟩
  unfold InsertWaits.scheduleBlock
  rw [visible, if_neg Bool.false_ne_true, transfer]

namespace MessageInLoop

/-- An empty block, and one behind it that sends a message over and over. -/
def program : Program where
  blocks := #[{ kind := .flag 0, linearSuccs := [1], logicalSuccs := [1] },
              { kind := .flag 0, instrs := [.immediate .sSendmsg 0], linearPreds := [0, 1],
                linearSuccs := [1], logicalPreds := [0, 1], logicalSuccs := [1] }]

def setting : Setting := { target := .ofGeneration .gfx9 }

/-- Something may be in flight on the given counters, and nothing has to complete. -/
def busy (counters : Counters) : State where
  inFlight := counters

end MessageInLoop

end Program

end WaveHazard
