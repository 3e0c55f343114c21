import WaveHazard.Hazard.Transfer
import WaveHazard.Program.Order

/-! # The analysis

A forward analysis over the linear and the logical graph computes the hazard state at the start of
every block. Blocks wait in a worklist ordered by their place in reverse postorder. A block that is
taken from it joins what its predecessors leave; if that changes its state, or it has not been
visited yet, it is visited, and its successors go back into the worklist when it leaves something
new.

A block may be visited a limited number of times. The loop ends because every round either uses up
one of the visits that remain or shortens the worklist.
-/

namespace WaveHazard.Hazard

open Machine

/-- A visit of a block and the state it was entered with. -/
structure Visit where
  block : Nat
  state : State

/-- How far the analysis of a program with `size` blocks has come. -/
structure Progress (size : Nat) where
  /-- The state at the start of every block. -/
  entry : Vector State size
  /-- The state at the end of every block. -/
  exit : Vector State size
  /-- How often every block has been visited. -/
  visits : Vector Nat size
  /-- The places of the blocks to look at, in ascending order. -/
  pending : List Nat
  /-- The visits so far, the latest one first. -/
  history : List Visit

/-- What the analysis of a program found, together with all the visits it took. -/
structure Findings (size : Nat) where
  /-- The visits in order. -/
  history : List Visit
  /-- The state at the start of every block, or the fault that ended the analysis. -/
  entry : Except Fault (Vector State size)

namespace Findings

variable {size : Nat}

/-- An analysis that a fault ended. The visits are given with the latest one first. -/
def stopped (history : List Visit) (fault : Fault) : Findings size :=
  { history := history.reverse, entry := .error fault }

/-- How often a block was visited. -/
def visitsOf (findings : Findings size) (block : Nat) : Nat :=
  findings.history.countP fun visit => visit.block == block

/-- The largest number of visits of one block. -/
def maxVisits (findings : Findings size) : Nat :=
  (List.range size).foldl (fun most block => max most (findings.visitsOf block)) 0

end Findings

/-- The visits that remain when every block may be visited `limit` times. -/
def remainingVisits (limit : Nat) (visits : List Nat) : Nat :=
  visits.foldr (fun visited remaining => limit - visited + remaining) 0

/-- One more visit of a block that has visits left leaves fewer of them. -/
theorem remainingVisits_set_lt {limit : Nat} {visits : List Nat} {block : Nat}
    (inside : block < visits.length) (room : visits[block] < limit) :
    remainingVisits limit (visits.set block (visits[block] + 1)) <
      remainingVisits limit visits := by
  induction visits generalizing block with
  | nil => simp at inside
  | cons first rest ih =>
      cases block with
      | zero =>
          simp only [List.getElem_cons_zero] at room
          simp only [remainingVisits, List.getElem_cons_zero, List.set_cons_zero,
            List.foldr_cons]
          omega
      | succ block =>
          simp only [List.length_cons, Nat.add_lt_add_iff_right] at inside
          simp only [List.getElem_cons_succ] at room
          have below := ih inside room
          simp only [remainingVisits, List.getElem_cons_succ, List.set_cons_succ,
            List.foldr_cons] at below ⊢
          omega

/-- A place put into an ascending list of places, once. -/
def insertPlace (place : Nat) : List Nat → List Nat
  | [] => [place]
  | first :: rest =>
      if place < first then place :: first :: rest
      else if place = first then first :: rest
      else first :: insertPlace place rest

namespace Progress

variable {size : Nat}

/-- The state joined with what the given predecessors leave, and whether that changed it. A
missing predecessor is a fault. -/
def joinPreds (exit : Vector State size) (logical : Bool) (preds : List Nat)
    (joined : State × Bool) : Except Fault (State × Bool) :=
  preds.foldlM (fun (state, grew) pred =>
    if inside : pred < size then
      let other := exit[pred]
      .ok (state.join other logical, grew || state.grows other logical)
    else .error .missingElement) joined

/-- The state with which a block is entered now, and whether it differs from the last one. -/
def arriving (progress : Progress size) (block : Block) (state : State) :
    Except Fault (State × Bool) := do
  let joined ← joinPreds progress.exit false block.linearPreds (state, false)
  joinPreds progress.exit true block.logicalPreds joined

/-- The worklist with the successors of a block. A missing successor is a fault. -/
def enqueue (size : Nat) (order : List Nat) (succs : List Nat) (pending : List Nat) :
    Except Fault (List Nat) :=
  succs.foldlM (fun pending succ =>
    if succ < size then .ok (insertPlace (order.idxOf succ) pending)
    else .error .missingElement) pending

end Progress

namespace Analysis

variable (setting : Setting) (program : Program) (order : List Nat) (limit : Nat)

/-- Take blocks from the worklist until it is empty. -/
def run (progress : Progress program.size) : Findings program.size :=
  match _pending : progress.pending with
  | [] => { history := progress.history.reverse, entry := .ok progress.entry }
  | place :: rest =>
      match order[place]? with
      | none => .stopped progress.history .missingElement
      | some position =>
          if inside : position < program.size then
            let block := program.blocks[position]
            if block.isExempt then run { progress with pending := rest }
            else match progress.arriving block progress.entry[position] with
              | .error fault => .stopped progress.history fault
              | .ok (state, grew) =>
                  if progress.visits[position] ≠ 0 ∧ !grew then
                    run { progress with pending := rest }
                  else if _room : progress.visits[position] < limit then
                    let history := { block := position, state } :: progress.history
                    match block.transfer setting state with
                    | .error fault => .stopped history fault
                    | .ok (left, _) =>
                        let succs :=
                          if progress.visits[position] = 0 ∨ left ≠ progress.exit[position] then
                            block.linearSuccs ++ block.logicalSuccs
                          else []
                        match Progress.enqueue program.size order succs rest with
                        | .error fault => .stopped history fault
                        | .ok pending =>
                            run
                              { entry := progress.entry.set position state,
                                exit := progress.exit.set position left,
                                visits := progress.visits.set position
                                  (progress.visits[position] + 1),
                                pending,
                                history }
                  else .stopped progress.history (.visitLimit position (progress.visits[position] + 1))
          else .stopped progress.history .missingElement
termination_by (remainingVisits limit progress.visits.toList, progress.pending.length)
decreasing_by
  · exact Prod.Lex.right _ (by simp [_pending])
  · exact Prod.Lex.right _ (by simp [_pending])
  · apply Prod.Lex.left
    simp only [Vector.toList_set]
    have bound : position < progress.visits.toList.length := by simpa using inside
    have below : remainingVisits limit (progress.visits.toList.set position
        (progress.visits.toList[position] + 1)) <
          remainingVisits limit progress.visits.toList :=
      remainingVisits_set_lt bound (by simpa using _room)
    simpa using below

end Analysis

end WaveHazard.Hazard

namespace WaveHazard.Program

open Hazard

/-- Compute the hazard state at the start of every block, visiting no block more than `limit`
times. -/
def analyze (program : Program) (setting : Setting) (limit : Nat) : Findings program.size :=
  match start with
  | .error fault => { history := [], entry := .error fault }
  | .ok (order, entry) =>
      Analysis.run setting program order limit
        { entry,
          exit := Vector.replicate program.size ∅,
          visits := Vector.replicate program.size 0,
          pending := List.range program.size,
          history := [] }
where
  /-- The order of the blocks and the states they start from: everything is empty but the entry of
  the program. -/
  start : Except Fault (List Nat × Vector State program.size) := do
    let order ← program.reversePostorder
    let blank : Vector State program.size := Vector.replicate program.size ∅
    if nonempty : 0 < program.size then
      let seeded ← State.atEntry setting.generation ∅ program
      return (order, blank.set 0 seeded)
    else return (order, blank)

end WaveHazard.Program
