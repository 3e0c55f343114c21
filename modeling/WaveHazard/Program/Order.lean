import WaveHazard.Program.Basic

/-! # Block order

Blocks in reverse postorder of the linear graph, so that a block comes after its predecessors
except along back edges. Blocks that cannot be reached from the entry follow in order of position.

The depth-first search keeps a stack of positions. A position on top that has not been discovered
is marked and its undiscovered successors go on top of it, the first one topmost; a position that
has been discovered is popped, and finished unless it was before. Every step discovers a position
or shortens the stack, which is why the search ends.
-/

namespace WaveHazard

namespace Search

variable (size : Nat) (successors : Nat → List Nat)

/-- The number of positions below `size` that have not been discovered. -/
def undiscovered (discovered : List Nat) : Nat :=
  (List.range size).countP fun position => decide (position ∉ discovered)

/-- Marking a position that was not discovered lowers the number of those that are not. -/
theorem undiscovered_cons_lt {discovered : List Nat} {position : Nat} (inside : position < size)
    (fresh : position ∉ discovered) :
    undiscovered size (position :: discovered) < undiscovered size discovered := by
  unfold undiscovered
  induction size with
  | zero => omega
  | succ count ih =>
      simp only [List.range_succ, List.countP_append, List.countP_cons, List.countP_nil]
      by_cases last : position = count
      · subst last
        have below : (List.range position).countP
            (fun other => decide (other ∉ position :: discovered)) ≤
              (List.range position).countP (fun other => decide (other ∉ discovered)) :=
          List.countP_mono_left fun other _ marked => by simp_all
        simp only [List.mem_cons, true_or, not_true_eq_false, decide_false, Bool.false_eq_true,
          if_false, fresh, not_false_eq_true, decide_true, if_true]
        simp only [List.mem_cons] at below
        omega
      · have below := ih (by omega)
        have other : count ≠ position := Ne.symm last
        simp only [List.mem_cons, other, false_or] at below ⊢
        omega

/-- The finished positions once the stack is empty, the last one first. -/
def run : (stack discovered finished : List Nat) → List Nat
  | [], _, finished => finished
  | top :: rest, discovered, finished =>
      if _inside : top < size then
        if _fresh : top ∉ discovered then
          run ((successors top).filter (fun next => next ∉ top :: discovered) ++ top :: rest)
            (top :: discovered) finished
        else run rest discovered (if top ∈ finished then finished else top :: finished)
      else run rest discovered finished
termination_by stack discovered => (undiscovered size discovered, stack.length)
decreasing_by
  · exact Prod.Lex.left _ _ (undiscovered_cons_lt size _inside _fresh)
  · exact Prod.Lex.right _ (by simp)
  · exact Prod.Lex.right _ (by simp)

end Search

namespace Program

/-- The linear successors of the block at a position; a missing block has none. -/
def linearSuccessors (program : Program) (position : Nat) : List Nat :=
  match program.blocks[position]? with
  | some block => block.linearSuccs
  | none => []

/-- Whether every linear edge leads to a block of the program. -/
def linearEdgesInside (program : Program) : Bool :=
  program.blocks.all fun block => block.linearSuccs.all (· < program.size)

/-- The positions of all blocks in reverse postorder of the linear graph, followed by those that
cannot be reached. An edge that leads out of the program is a fault. -/
def reversePostorder (program : Program) : Except Fault (List Nat) :=
  if program.linearEdgesInside then
    let reached := Search.run program.size program.linearSuccessors [0] [] []
    .ok (reached ++ (List.range program.size).filter fun position => position ∉ reached)
  else .error .missingElement

end Program

end WaveHazard
