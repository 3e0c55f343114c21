import Mathlib.Logic.Relation
import WaveHazard.Proofs.ByteRange
import WaveHazard.Proofs.PostFixpoint

/-! # The analysis converges

The limit on visits is never what ends the analysis. Here its loop is a relation without a limit,
`Analysis.Round`. A block is visited again only when a join has reported a change, so every visit
after the first one enlarges the state of the block, and the numbers in states fit into bytes. A
block is therefore visited at most once more than the order of states is high, whatever the program
is, and between visits the worklist gets shorter.

None of this asks for a monotone transfer function, and it is not: a state that knows of more can
lead to a wait that settles what a smaller state still has in flight.
-/

namespace WaveHazard

open Machine Hazard

/-- Every edge of a program leads to a block of it. -/
def Program.EdgesInside (program : Program) : Prop :=
  ∀ position (inside : position < program.size) (graph : Graph),
    (∀ pred ∈ WellFormed.preds program.blocks[position] graph, pred < program.size) ∧
      ∀ succ ∈ WellFormed.succs program.blocks[position] graph, succ < program.size

namespace Hazard

namespace Progress

variable {size : Nat}

/-- How an analysis starts from the given states. -/
def initial (entry : Vector State size) : Progress size where
  entry
  exit := Vector.replicate size ∅
  visits := Vector.replicate size 0
  pending := List.range size
  history := []

/-- Joining predecessors gives a larger state when it reports a change, and keeps numbers in
range. -/
theorem le_of_joinPreds {exit : Vector State size} {logical : Bool} {preds : List Nat}
    {state joined : State} {grew grewAfter : Bool}
    (joining : joinPreds exit logical preds (state, grew) = .ok (joined, grewAfter)) :
    state ≤ joined ∧ (grewAfter = true → grew = true ∨ state < joined) ∧
      (state.Fits → (∀ pred (inside : pred < size), exit[pred].Fits) → joined.Fits) := by
  induction preds generalizing state grew with
  | nil =>
      cases joining
      exact ⟨le_rfl, fun same => .inl same, fun fits _ => fits⟩
  | cons first rest ih =>
      obtain ⟨⟨next, grewNext⟩, stepped, remaining⟩ := Outcome.bind_eq_ok.mp joining
      dsimp only at stepped
      split at stepped
      · rename_i inside
        cases stepped
        obtain ⟨above, reported, range⟩ := ih remaining
        have larger := State.le_join state exit[first] logical
        refine ⟨larger.trans above, ?_, fun fits exits =>
          range (fits.join (exits first inside) logical) exits⟩
        intro changed
        -- The change was reported before, is reported by this join, or by a later one.
        rcases reported changed with now | later
        · rcases Bool.or_eq_true_iff.mp now with before | here
          · exact .inl before
          · exact .inr (lt_of_lt_of_le (State.lt_join_iff.mpr here) above)
        · exact .inr (lt_of_le_of_lt larger later)
      · cases stepped

/-- What arrives at a block is above the state it had, strictly so if growth is reported. -/
theorem le_of_arriving {progress : Progress size} {block : Block} {state joined : State}
    {grew : Bool} (arriving : progress.arriving block state = .ok (joined, grew)) :
    state ≤ joined ∧ (grew = true → state < joined) ∧
      (state.Fits → (∀ pred (inside : pred < size), progress.exit[pred].Fits) → joined.Fits) := by
  obtain ⟨⟨middle, grewLinear⟩, linear, logical⟩ := Outcome.bind_eq_ok.mp arriving
  obtain ⟨aboveLinear, reportedLinear, rangeLinear⟩ := le_of_joinPreds linear
  obtain ⟨aboveLogical, reportedLogical, rangeLogical⟩ := le_of_joinPreds logical
  refine ⟨aboveLinear.trans aboveLogical, ?_, fun fits exits =>
    rangeLogical (rangeLinear fits exits) exits⟩
  intro changed
  rcases reportedLogical changed with before | later
  · rcases reportedLinear before with never | sooner
    · cases never
    · exact lt_of_lt_of_le sooner aboveLogical
  · exact lt_of_le_of_lt aboveLinear later

/-- Predecessors inside the program can be joined. -/
theorem exists_joinPreds (exit : Vector State size) (logical : Bool) {preds : List Nat}
    (inside : ∀ pred ∈ preds, pred < size) (joined : State × Bool) :
    ∃ result, joinPreds exit logical preds joined = .ok result :=
  Outcome.succeeds_foldlM (fun pred member _ => ⟨_, dif_pos (inside pred member)⟩) joined

/-- A state arrives at every block whose predecessors are inside the program. -/
theorem exists_arriving (progress : Progress size) {block : Block}
    (inside : ∀ graph, ∀ pred ∈ WellFormed.preds block graph, pred < size) (state : State) :
    ∃ joined grew, progress.arriving block state = .ok (joined, grew) := by
  obtain ⟨linear, joinedLinear⟩ :=
    exists_joinPreds progress.exit false (inside .linear) (state, false)
  obtain ⟨⟨joined, grew⟩, joinedLogical⟩ :=
    exists_joinPreds progress.exit true (inside .logical) linear
  exact ⟨joined, grew, Outcome.bind_eq_ok.mpr ⟨linear, joinedLinear, joinedLogical⟩⟩

/-- Successors inside the program can be put into the worklist. -/
theorem exists_enqueue (order : List Nat) {succs : List Nat} (inside : ∀ succ ∈ succs, succ < size)
    (pending : List Nat) : ∃ longer, enqueue size order succs pending = .ok longer :=
  Outcome.succeeds_foldlM (fun succ member _ => ⟨_, if_pos (inside succ member)⟩) pending

/-- What is put into the worklist are places of successors. -/
theorem of_mem_enqueue {order succs pending longer : List Nat}
    (enqueued : enqueue size order succs pending = .ok longer) {place : Nat}
    (member : place ∈ longer) :
    place ∈ pending ∨ ∃ succ, succ < size ∧ place = order.idxOf succ := by
  induction succs generalizing pending with
  | nil =>
      cases enqueued
      exact .inl member
  | cons first rest ih =>
      obtain ⟨next, inserted, remaining⟩ := Outcome.bind_eq_ok.mp enqueued
      dsimp only at inserted
      split at inserted
      · rename_i inside
        cases inserted
        rcases ih remaining with before | later
        · rcases mem_insertPlace.mp before with rfl | kept
          · exact .inr ⟨first, inside, rfl⟩
          · exact .inl kept
        · exact .inr later
      · cases inserted

end Progress

namespace Analysis

/-- One round of the worklist, however often blocks have been visited. -/
inductive Round (setting : Setting) (program : Program) (order : List Nat)
    (progress : Progress program.size) : Progress program.size → Prop where
  /-- An exempt block is not looked at. -/
  | skip {place position : Nat} {rest : List Nat} (pending : progress.pending = place :: rest)
      (named : order[place]? = some position) (inside : position < program.size)
      (exempt : program.blocks[position].isExempt = true) :
      Round setting program order progress { progress with pending := rest }
  /-- A block whose predecessors leave nothing new is not visited again. -/
  | quiet {place position : Nat} {rest : List Nat} {state : State}
      (pending : progress.pending = place :: rest) (named : order[place]? = some position)
      (inside : position < program.size) (visible : program.blocks[position].isExempt = false)
      (arriving : progress.arriving program.blocks[position] progress.entry[position] =
        .ok (state, false))
      (visited : progress.visits[position] ≠ 0) :
      Round setting program order progress { progress with pending := rest }
  /-- A block is run from what its predecessors leave, and its successors go into the worklist if
  it leaves something new. -/
  | visit {place position : Nat} {rest longer : List Nat} {state left : State}
      {schedule : Schedule} {grew : Bool}
      (pending : progress.pending = place :: rest) (named : order[place]? = some position)
      (inside : position < program.size) (visible : program.blocks[position].isExempt = false)
      (arriving : progress.arriving program.blocks[position] progress.entry[position] =
        .ok (state, grew))
      (due : progress.visits[position] = 0 ∨ grew = true)
      (transfer : program.blocks[position].transfer setting state = .ok (left, schedule))
      (enqueued : Progress.enqueue program.size order
        (if progress.visits[position] = 0 ∨ left ≠ progress.exit[position] then
          program.blocks[position].linearSuccs ++ program.blocks[position].logicalSuccs else [])
        rest = .ok longer) :
      Round setting program order progress
        { entry := progress.entry.set position state,
          exit := progress.exit.set position left,
          visits := progress.visits.set position (progress.visits[position] + 1),
          pending := longer,
          history := { block := position, state } :: progress.history }

variable {setting : Setting} {program : Program} {order : List Nat}

/-- The analysis makes a round when the limit allows for the visit in it. -/
theorem run_of_round {limit : Nat} {progress next : Progress program.size}
    (round : Round setting program order progress next)
    (room : ∀ position (inside : position < program.size), next.visits[position] ≤ limit) :
    run setting program order limit progress = run setting program order limit next := by
  cases round with
  | skip pending named inside exempt =>
      rw [run]
      split
      · rename_i ended
        cases ended.symm.trans pending
      · rename_i first others found
        cases found.symm.trans pending
        simp only [named, inside, exempt, dif_pos, if_true]
  | quiet pending named inside visible arriving visited =>
      rw [run]
      split
      · rename_i ended
        cases ended.symm.trans pending
      · rename_i first others found
        cases found.symm.trans pending
        simp only [named, inside, visible, arriving, dif_pos, Bool.false_eq_true, if_false,
          visited, ne_eq, not_false_eq_true, Bool.not_false, and_self, if_true]
  | @visit place position rest longer state left schedule grew pending named inside visible arriving
      due transfer enqueued =>
      have allowed : progress.visits[position] < limit :=
        Nat.lt_of_succ_le (by simpa using room position inside)
      exact run_of_visit pending named inside visible arriving due allowed transfer enqueued

/-- A visit after the first one enlarges the state of the block. -/
theorem Round.enlarges {progress next : Progress program.size}
    (round : Round setting program order progress next) {position : Nat}
    (inside : position < program.size) (visit : next.visits[position] ≠ progress.visits[position])
    (again : progress.visits[position] ≠ 0) : progress.entry[position] < next.entry[position] := by
  cases round with
  | skip => exact absurd rfl visit
  | quiet => exact absurd rfl visit
  | @visit place other rest longer state left schedule grew pending named there visible arriving
      due transfer enqueued =>
      by_cases same : other = position
      · subst same
        simp only [Vector.getElem_set_self]
        exact (Progress.le_of_arriving arriving).2.1 (due.resolve_left again)
      · simp only [Vector.getElem_set_ne _ _ same, ne_eq, not_true_eq_false] at visit

/-- What holds after every round. -/
structure Bounded (order : List Nat) (progress : Progress program.size) : Prop where
  /-- The numbers in all states are in range. -/
  entry : ∀ position (inside : position < program.size), progress.entry[position].Fits
  exit : ∀ position (inside : position < program.size), progress.exit[position].Fits
  /-- A block was visited at most once more than its state has been enlarged. -/
  visits : ∀ position (inside : position < program.size),
    progress.visits[position] ≤ progress.entry[position].rank + 1
  /-- The places in the worklist name blocks. -/
  named : ∀ place ∈ progress.pending, ∃ position < program.size, order[place]? = some position

namespace Bounded

variable {progress next : Progress program.size}

/-- No block is visited more often than the order of states allows. -/
theorem visits_le (bounded : Bounded order progress) {position : Nat}
    (inside : position < program.size) : progress.visits[position] ≤ State.height + 1 :=
  (bounded.visits position inside).trans
    (Nat.succ_le_succ (State.rank_le_height (bounded.entry position inside)))

/-- A place may be taken off the worklist. -/
theorem drop {place : Nat} {rest : List Nat} (bounded : Bounded order progress)
    (pending : progress.pending = place :: rest) :
    Bounded order { progress with pending := rest } where
  entry := bounded.entry
  exit := bounded.exit
  visits := bounded.visits
  named other member := bounded.named other (pending ▸ List.mem_cons_of_mem place member)

/-- Every round keeps numbers in range and visits in step with the states. -/
theorem round (bounded : Bounded order progress) (ordered : program.reversePostorder = .ok order)
    (round : Round setting program order progress next) : Bounded order next := by
  cases round with
  | skip pending => exact bounded.drop pending
  | quiet pending => exact bounded.drop pending
  | @visit place position rest longer state left schedule grew pending named inside visible arriving
      due transfer enqueued =>
      obtain ⟨_, enlarged, range⟩ := Progress.le_of_arriving arriving
      have before := bounded.entry position inside
      have fits : state.Fits := range before bounded.exit
      constructor
      · intro other there
        by_cases same : position = other
        · subst same
          simpa using fits
        · simpa [Vector.getElem_set_ne _ _ same] using bounded.entry other there
      · intro other there
        by_cases same : position = other
        · subst same
          simpa using fits.transfer transfer
        · simpa [Vector.getElem_set_ne _ _ same] using bounded.exit other there
      · intro other there
        by_cases same : position = other
        · subst same
          simp only [Vector.getElem_set_self]
          -- A first visit needs no rank; any other one comes with a state of a larger rank.
          rcases due with fresh | changed
          · rw [fresh]
            exact Nat.succ_le_succ (Nat.zero_le _)
          · have rises := State.rank_lt_of_lt (enlarged changed) before fits
            have visits := bounded.visits position inside
            omega
        · simpa [Vector.getElem_set_ne _ _ same] using bounded.visits other there
      · intro other member
        rcases Progress.of_mem_enqueue enqueued member with kept | ⟨succ, there, rfl⟩
        · exact bounded.named other (pending ▸ List.mem_cons_of_mem place kept)
        · exact ⟨succ, there, Program.getElem?_idxOf_reversePostorder ordered there⟩

/-- A round uses up a visit, or shortens the worklist. -/
theorem decreases (bounded : Bounded order progress)
    (ordered : program.reversePostorder = .ok order)
    (round : Round setting program order progress next) :
    Prod.Lex (· < ·) (· < ·)
      (remainingVisits (State.height + 1) next.visits.toList, next.pending.length)
      (remainingVisits (State.height + 1) progress.visits.toList, progress.pending.length) := by
  have after := bounded.round ordered round
  cases round with
  | skip pending => exact Prod.Lex.right _ (by simp [pending])
  | quiet pending => exact Prod.Lex.right _ (by simp [pending])
  | @visit place position rest longer state left schedule grew pending named inside visible arriving
      due transfer enqueued =>
      have room := after.visits_le inside
      simp only [Vector.getElem_set_self] at room
      have length : position < progress.visits.toList.length := by simpa using inside
      have below : remainingVisits (State.height + 1) (progress.visits.toList.set position
          (progress.visits.toList[position] + 1)) <
            remainingVisits (State.height + 1) progress.visits.toList :=
        remainingVisits_set_lt length (by simpa using Nat.lt_of_succ_le room)
      exact Prod.Lex.left _ _ (by simpa [Vector.toList_set] using below)

/-- There is no endless sequence of rounds. -/
theorem acc {current : Progress program.size} (bounded : Bounded order current)
    (ordered : program.reversePostorder = .ok order) :
    Acc (fun next progress => Round setting program order progress next) current :=
  ⟨current, fun _ round => (bounded.round ordered round).acc ordered⟩
termination_by (remainingVisits (State.height + 1) current.visits.toList, current.pending.length)
decreasing_by exact bounded.decreases ordered round

/-- An analysis starts with everything in range. -/
theorem initial {entry : Vector State program.size}
    (ordered : program.reversePostorder = .ok order)
    (fits : ∀ position (inside : position < program.size), entry[position].Fits) :
    Bounded order (Progress.initial entry) where
  entry := fits
  exit position inside := by
    have blank : (Progress.initial entry).exit[position] = ∅ := Vector.getElem_replicate ..
    rw [blank]
    exact State.fits_empty
  visits position inside := by
    have fresh : (Progress.initial entry).visits[position] = 0 := Vector.getElem_replicate ..
    rw [fresh]
    exact Nat.zero_le _
  named place member :=
    Program.exists_getElem?_reversePostorder ordered (List.mem_range.mp member)

/-- While there is something in the worklist, there is a round, unless the transfer function
faults. -/
theorem exists_round (bounded : Bounded order progress) (edges : program.EdgesInside)
    (faultless : ∀ position (inside : position < program.size),
      program.blocks[position].isExempt = false → ∀ state grew,
        progress.arriving program.blocks[position] progress.entry[position] = .ok (state, grew) →
          ∃ left schedule, program.blocks[position].transfer setting state = .ok (left, schedule))
    (unfinished : progress.pending ≠ []) :
    ∃ next, Round setting program order progress next := by
  obtain ⟨place, rest, pending⟩ := List.exists_cons_of_ne_nil unfinished
  obtain ⟨position, inside, named⟩ :=
    bounded.named place (by rw [pending]; exact List.mem_cons_self)
  cases visible : program.blocks[position].isExempt with
  | true => exact ⟨_, .skip pending named inside visible⟩
  | false =>
      obtain ⟨state, grew, arriving⟩ := progress.exists_arriving
        (fun graph => (edges position inside graph).1) progress.entry[position]
      by_cases due : progress.visits[position] = 0 ∨ grew = true
      · obtain ⟨left, schedule, transfer⟩ := faultless position inside visible state grew arriving
        obtain ⟨longer, enqueued⟩ := @Progress.exists_enqueue program.size order
          (if progress.visits[position] = 0 ∨ left ≠ progress.exit[position] then
            program.blocks[position].linearSuccs ++ program.blocks[position].logicalSuccs else [])
          (by
            split
            · exact List.forall_mem_append.mpr
                ⟨(edges position inside .linear).2, (edges position inside .logical).2⟩
            · intro succ member
              cases member) rest
        exact ⟨_, .visit pending named inside visible arriving due transfer enqueued⟩
      · rw [not_or, Bool.not_eq_true] at due
        cases due.2
        exact ⟨_, .quiet pending named inside visible arriving due.1⟩

end Bounded

/-- The analysis comes so far when it starts from the given states. -/
def Reached (setting : Setting) (program : Program) (order : List Nat)
    (entry : Vector State program.size) : Progress program.size → Prop :=
  Relation.ReflTransGen (Round setting program order) (Progress.initial entry)

/-- The transfer function does not fault on any state that a block is entered with. -/
def Faultless (setting : Setting) (program : Program) (order : List Nat)
    (entry : Vector State program.size) : Prop :=
  ∀ progress, Reached setting program order entry progress →
    ∀ position (inside : position < program.size), program.blocks[position].isExempt = false →
      ∀ state grew,
        progress.arriving program.blocks[position] progress.entry[position] = .ok (state, grew) →
          ∃ left schedule, program.blocks[position].transfer setting state = .ok (left, schedule)

variable {entry : Vector State program.size}

/-- The bounds hold after every number of rounds. -/
theorem Bounded.reached {progress : Progress program.size}
    (bounded : Bounded order (Progress.initial entry))
    (ordered : program.reversePostorder = .ok order)
    (reached : Reached setting program order entry progress) : Bounded order progress := by
  induction reached with
  | refl => exact bounded
  | tail _ round ih => exact ih.round ordered round

/-- From wherever the analysis has come, it goes on until the worklist is empty, and no limit above
the height of the order of states changes where it ends. -/
theorem exists_final (edges : program.EdgesInside) (ordered : program.reversePostorder = .ok order)
    (bounded : Bounded order (Progress.initial entry))
    (faultless : Faultless setting program order entry) {progress : Progress program.size}
    (reached : Reached setting program order entry progress) :
    ∃ final, Reached setting program order entry final ∧ final.pending = [] ∧
      ∀ limit, State.height < limit →
        (run setting program order limit progress).entry = .ok final.entry := by
  have ends : Acc (fun next progress => Round setting program order progress next) progress :=
    (bounded.reached ordered reached).acc ordered
  -- The induction is over the rounds that are still to come.
  induction ends with
  | intro progress _ ih =>
      by_cases done : progress.pending = []
      · exact ⟨progress, reached, done, fun _ _ => entry_run_of_done done⟩
      · obtain ⟨next, round⟩ := (bounded.reached ordered reached).exists_round edges
          (faultless progress reached) done
        have further := reached.tail round
        obtain ⟨final, arrived, empty, same⟩ := ih next round further
        refine ⟨final, arrived, empty, fun limit high => ?_⟩
        rw [run_of_round round fun position inside =>
          ((bounded.reached ordered further).visits_le inside).trans high]
        exact same limit high

end Analysis

end Hazard

namespace Program

open Analysis

/-- An analysis starts from the block order, with numbers in range. -/
theorem of_start {program : Program} {setting : Setting} {order : List Nat}
    {entry : Vector State program.size}
    (started : analyze.start program setting = .ok (order, entry)) :
    program.reversePostorder = .ok order ∧
      ∀ position (inside : position < program.size), entry[position].Fits := by
  obtain ⟨sorted, ordered, starting⟩ := Outcome.bind_eq_ok.mp started
  have blank {position : Nat} (inside : position < program.size) :
      (Vector.replicate program.size (∅ : State))[position].Fits := by
    rw [Vector.getElem_replicate]
    exact State.fits_empty
  dsimp only at starting
  split at starting
  · obtain ⟨seeded, atEntry, same⟩ := Outcome.bind_eq_ok.mp starting
    cases same
    refine ⟨ordered, fun position inside => ?_⟩
    by_cases first : 0 = position
    · subst first
      rw [Vector.getElem_set_self]
      exact State.fits_atEntry atEntry
    · rw [Vector.getElem_set_ne _ _ first]
      exact blank inside
  · cases starting
    exact ⟨ordered, fun position inside => blank inside⟩

/-- A barrier. -/
def barrierOnly : Block where
  kind := .flag 0
  instrs := [{ opcode := .pBarrier,
               payload := .barrier
                { storage := .buffer, semantics := Semantics.acquireRelease, scope := .device } }]

/-- Stores are in flight. -/
def storing : State where
  inFlight := .single .vs

/-- The stores go to a buffer. -/
def storingToBuffer : State where
  fences := (Vector.replicate storageCount {}).set 0
    { wait := { vs := some 0 }, events := .single .vmemStore }

/-- Whether blocks leave larger states when they are entered with larger ones. -/
def TransferMonotone (setting : Setting) : Prop :=
  ∀ (block : Block) {smaller larger leftSmaller leftLarger : State}, smaller ≤ larger →
    (block.transfer setting smaller).map Prod.fst = .ok leftSmaller →
      (block.transfer setting larger).map Prod.fst = .ok leftLarger → leftSmaller ≤ leftLarger

/-- A barrier waits for stores to a buffer, so nothing is in flight behind it, but it does not wait
for stores to other memory. -/
theorem not_transferMonotone : ¬TransferMonotone { target := .ofGeneration .gfx10 } := by
  intro monotone
  have below := monotone barrierOnly (State.le_join storing storingToBuffer false) rfl rfl
  exact absurd (below.inFlight 3 (by decide +kernel)) (by decide +kernel)

/-- The analysis converges without a limit on visits. There is no endless sequence of rounds, every
visit of a block after its first one enlarges the state of the block, and there are at most as many
of these as the order of states is high. If the transfer function does not fault, the worklist gets
empty, and a limit that is large enough for any program does not change the result. All of this
holds although the transfer function is not monotone. -/
theorem analyze_converges {program : Program} {setting : Setting} {order : List Nat}
    {entry : Vector State program.size} (edges : program.EdgesInside)
    (started : analyze.start program setting = .ok (order, entry))
    (faultless : Faultless setting program order entry) :
    Acc (fun next progress => Round setting program order progress next)
        (Progress.initial entry) ∧
      (∀ progress next, Reached setting program order entry progress →
        Round setting program order progress next → ∀ position (inside : position < program.size),
          next.visits[position] ≠ progress.visits[position] → progress.visits[position] ≠ 0 →
            progress.entry[position] < next.entry[position]) ∧
      (∀ progress, Reached setting program order entry progress →
        ∀ position (inside : position < program.size),
          progress.visits[position] ≤ State.height + 1) ∧
      (∃ final, Reached setting program order entry final ∧ final.pending = [] ∧
        ∀ limit, State.height < limit →
          (program.analyze setting limit).entry = .ok final.entry) ∧
      ¬∀ setting, TransferMonotone setting := by
  obtain ⟨ordered, fits⟩ := of_start started
  have bounded := Bounded.initial ordered fits
  refine ⟨bounded.acc ordered, fun _ _ _ round position inside => round.enlarges inside,
    fun _ reached position inside => (bounded.reached ordered reached).visits_le inside, ?_,
    fun monotone => not_transferMonotone (monotone _)⟩
  obtain ⟨final, arrived, empty, same⟩ := exists_final edges ordered bounded faultless .refl
  refine ⟨final, arrived, empty, fun limit high => ?_⟩
  unfold analyze
  rw [started]
  exact same limit high

/-- A block that sends a message and jumps back to itself. -/
def messageForever : Program where
  blocks := #[{ kind := .flag 0, instrs := [.immediate .sSendmsg 0], linearPreds := [0],
                linearSuccs := [0], logicalPreds := [0], logicalSuccs := [0] }]

/-- The loop is left although the block goes back to itself. -/
theorem messageForever_converges :
    ∃ entry, ∀ limit, State.height < limit →
      (messageForever.analyze { target := .ofGeneration .gfx9 } limit).entry = .ok entry := by
  have edges : messageForever.EdgesInside := by
    intro position inside graph
    cases Nat.lt_one_iff.mp inside
    cases graph <;> decide +revert
  have ordered : messageForever.reversePostorder = .ok [0] := by
    simp [messageForever, reversePostorder, linearEdgesInside, linearSuccessors, Search.run, size]
  have started : analyze.start messageForever { target := .ofGeneration .gfx9 } =
      .ok ([0], (Vector.replicate 1 ∅).set 0 ∅) := by
    unfold analyze.start
    rw [ordered]
    rfl
  obtain ⟨_, _, _, ⟨final, _, _, same⟩, _⟩ := analyze_converges edges started (by
    intro progress _ position inside _ state grew _
    cases Nat.lt_one_iff.mp inside
    exact ⟨_, _, rfl⟩)
  exact ⟨final.entry, same⟩

end Program

end WaveHazard
