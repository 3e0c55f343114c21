import Mathlib.Logic.Relation
import WaveHazard.Proofs.BlockOrder

/-! # Edges lead forward in the block order, except in loops

The depth-first search finishes a position once everything on top of it has been popped. What stands
above an open position, one that is discovered but not finished, can be reached from it. So when a
position is finished, each of its successors is finished already, or it is open and stands further
down on the stack, and then the edge closes a loop. Read from the last finished position to the
first, every edge leads forward unless it is part of a loop.
-/

namespace WaveHazard

namespace Search

/-- Whether there is a path from one position to another. -/
abbrev Reaches (successors : Nat → List Nat) : Nat → Nat → Prop :=
  Relation.ReflTransGen fun here next => next ∈ successors here

/-- What stands above the topmost occurrence of a position. -/
def above (position : Nat) (stack : List Nat) : List Nat := stack.takeWhile (· ≠ position)

/-- What is put on top of a position when it is discovered. -/
def pushed (successors : Nat → List Nat) (discovered : List Nat) (top : Nat) : List Nat :=
  (successors top).filter fun next => next ∉ top :: discovered

/-- Every edge from a listed position leads to one behind it, or closes a loop. -/
def LeadsForward (successors : Nat → List Nat) : List Nat → Prop
  | [] => True
  | position :: behind =>
      (∀ next ∈ successors position, next ∈ behind ∨ Reaches successors next position) ∧
        LeadsForward successors behind

variable {size root top position : Nat} {successors : Nat → List Nat}
  {stack rest discovered finished : List Nat}

/-! ## Above a position -/

theorem above_cons_self (position : Nat) (rest : List Nat) :
    above position (position :: rest) = [] := by
  simp [above]

theorem above_cons_of_ne (different : position ≠ top) (rest : List Nat) :
    above position (top :: rest) = top :: above position rest := by
  simp [above, Ne.symm different]

/-- What is put on top of a position stands above it. -/
theorem above_append {upper : List Nat} (fresh : position ∉ upper) (rest : List Nat) :
    above position (upper ++ rest) = upper ++ above position rest := by
  unfold above
  apply List.takeWhile_append_of_pos
  intro other member
  have different : other ≠ position := fun same => fresh (same ▸ member)
  exact decide_eq_true different

/-- The successors that were not discovered are pushed. -/
theorem mem_pushed {next : Nat} :
    next ∈ pushed successors discovered top ↔
      next ∈ successors top ∧ next ∉ top :: discovered := by
  rw [pushed, List.mem_filter, decide_eq_true_eq]

/-! ## Open positions -/

/-- An open position is on the stack. What stands above it can be reached from it, and its
successors have been discovered or stand there. -/
structure IsOpen (successors : Nat → List Nat) (stack discovered : List Nat) (position : Nat) :
    Prop where
  mem : position ∈ stack
  reaches : ∀ other ∈ above position stack, Reaches successors position other
  covered : ∀ next ∈ successors position, next ∈ discovered ∨ next ∈ above position stack

/-- A position is open once it has been discovered. -/
theorem isOpen_top (successors : Nat → List Nat) (discovered rest : List Nat) (top : Nat) :
    IsOpen successors (pushed successors discovered top ++ top :: rest) (top :: discovered)
      top := by
  have hidden : top ∉ pushed successors discovered top :=
    fun inside => (mem_pushed.mp inside).2 List.mem_cons_self
  have upper : above top (pushed successors discovered top ++ top :: rest) =
      pushed successors discovered top := by
    rw [above_append hidden, above_cons_self, List.append_nil]
  refine ⟨List.mem_append_right _ List.mem_cons_self, ?_, ?_⟩
  · rw [upper]
    exact fun other inside => .single (mem_pushed.mp inside).1
  · rw [upper]
    intro next edge
    by_cases known : next ∈ top :: discovered
    · exact .inl known
    · exact .inr (mem_pushed.mpr ⟨edge, known⟩)

/-- An open position stays open when another one is discovered. -/
theorem IsOpen.discover (opened : IsOpen successors (top :: rest) discovered position)
    (known : position ∈ discovered) (fresh : top ∉ discovered) :
    IsOpen successors (pushed successors discovered top ++ top :: rest) (top :: discovered)
      position := by
  have different : position ≠ top := fun same => fresh (same ▸ known)
  have hidden : position ∉ pushed successors discovered top :=
    fun inside => (mem_pushed.mp inside).2 (List.mem_cons_of_mem _ known)
  obtain ⟨mem, reaches, covered⟩ := opened
  rw [above_cons_of_ne different] at reaches covered
  have upper : above position (pushed successors discovered top ++ top :: rest) =
      pushed successors discovered top ++ top :: above position rest := by
    rw [above_append hidden, above_cons_of_ne different]
  refine ⟨List.mem_append_right _ mem, ?_, ?_⟩
  · rw [upper]
    intro other inside
    rcases List.mem_append.mp inside with next | further
    · exact (reaches top List.mem_cons_self).tail (mem_pushed.mp next).1
    · exact reaches other further
  · rw [upper]
    intro next edge
    rcases covered next edge with old | further
    · exact .inl (List.mem_cons_of_mem _ old)
    · exact .inr (List.mem_append_right _ further)

/-- An open position stays open when another one is popped that has been discovered. -/
theorem IsOpen.pop (opened : IsOpen successors (top :: rest) discovered position)
    (known : top ∈ discovered) (different : position ≠ top) :
    IsOpen successors rest discovered position := by
  obtain ⟨mem, reaches, covered⟩ := opened
  rw [above_cons_of_ne different] at reaches covered
  refine ⟨(List.mem_cons.mp mem).resolve_left different, ?_, ?_⟩
  · exact fun other inside => reaches other (List.mem_cons_of_mem _ inside)
  · intro next edge
    rcases covered next edge with old | further
    · exact .inl old
    · rcases List.mem_cons.mp further with rfl | below
      · exact .inl known
      · exact .inr below

/-! ## The search -/

/-- What holds in the course of a search from a position. -/
structure Explores (successors : Nat → List Nat) (root : Nat)
    (stack discovered finished : List Nat) : Prop where
  entered : root ∈ discovered ∨ root ∈ stack
  pending : ∀ position ∈ stack, Reaches successors root position
  reached : ∀ position ∈ discovered, Reaches successors root position
  found : ∀ position ∈ finished, position ∈ discovered
  closed : ∀ position ∈ finished, ∀ next ∈ successors position, next ∈ discovered
  isOpen : ∀ position ∈ discovered, position ∉ finished →
    IsOpen successors stack discovered position
  forward : LeadsForward successors finished

/-- A search starts with nothing but its root. -/
theorem explores_start (successors : Nat → List Nat) (root : Nat) :
    Explores successors root [root] [] [] where
  entered := .inr List.mem_cons_self
  pending position member := by
    rw [List.mem_singleton.mp member]
  reached position member := absurd member List.not_mem_nil
  found position member := absurd member List.not_mem_nil
  closed position member := absurd member List.not_mem_nil
  isOpen position member := absurd member List.not_mem_nil
  forward := trivial

namespace Explores

/-- A position is discovered, and its successors are put on top of it. -/
theorem discover (explores : Explores successors root (top :: rest) discovered finished)
    (fresh : top ∉ discovered) :
    Explores successors root (pushed successors discovered top ++ top :: rest) (top :: discovered)
      finished := by
  have here : Reaches successors root top := explores.pending top List.mem_cons_self
  refine ⟨?_, ?_, List.forall_mem_cons.mpr ⟨here, explores.reached⟩, ?_, ?_, ?_,
    explores.forward⟩
  · rcases explores.entered with known | waiting
    · exact .inl (List.mem_cons_of_mem _ known)
    · exact .inr (List.mem_append_right _ waiting)
  · intro position member
    rcases List.mem_append.mp member with next | older
    · exact here.tail (mem_pushed.mp next).1
    · exact explores.pending position older
  · exact fun position member => List.mem_cons_of_mem _ (explores.found position member)
  · exact fun position member next edge =>
      List.mem_cons_of_mem _ (explores.closed position member next edge)
  · intro position member unfinished
    rcases List.mem_cons.mp member with rfl | known
    · exact isOpen_top successors discovered rest position
    · exact (explores.isOpen position known unfinished).discover known fresh

/-- The successors of a discovered position on top of the stack have been discovered. -/
theorem covered_top (explores : Explores successors root (top :: rest) discovered finished)
    (known : top ∈ discovered) (unfinished : top ∉ finished) :
    ∀ next ∈ successors top, next ∈ discovered := by
  intro next edge
  rcases (explores.isOpen top known unfinished).covered next edge with old | further
  · exact old
  · rw [above_cons_self] at further
    exact absurd further List.not_mem_nil

/-- The position on top can be reached from every open one. -/
theorem reaches_top (explores : Explores successors root (top :: rest) discovered finished)
    (known : position ∈ discovered) (unfinished : position ∉ finished) :
    Reaches successors position top := by
  by_cases same : position = top
  · rw [same]
  · apply (explores.isOpen position known unfinished).reaches
    rw [above_cons_of_ne same]
    exact List.mem_cons_self

/-- A position that has been discovered is popped, and finished unless it was before. -/
theorem pop (explores : Explores successors root (top :: rest) discovered finished)
    (known : top ∈ discovered) :
    Explores successors root rest discovered
      (if top ∈ finished then finished else top :: finished) := by
  have entered : root ∈ discovered ∨ root ∈ rest := by
    rcases explores.entered with old | waiting
    · exact .inl old
    · rcases List.mem_cons.mp waiting with rfl | below
      · exact .inl known
      · exact .inr below
  have pending : ∀ position ∈ rest, Reaches successors root position :=
    fun position member => explores.pending position (List.mem_cons_of_mem _ member)
  have stays (position : Nat) (member : position ∈ discovered) (unfinished : position ∉ finished)
      (different : position ≠ top) : IsOpen successors rest discovered position :=
    (explores.isOpen position member unfinished).pop known different
  by_cases before : top ∈ finished
  · rw [if_pos before]
    refine ⟨entered, pending, explores.reached, explores.found, explores.closed, ?_,
      explores.forward⟩
    intro position member unfinished
    exact stays position member unfinished fun same => unfinished (same ▸ before)
  · rw [if_neg before]
    have covered := explores.covered_top known before
    refine ⟨entered, pending, explores.reached, List.forall_mem_cons.mpr ⟨known, explores.found⟩,
      List.forall_mem_cons.mpr ⟨covered, explores.closed⟩, ?_, ?_, explores.forward⟩
    · intro position member unfinished
      obtain ⟨different, unfinished⟩ := not_or.mp (List.mem_cons.not.mp unfinished)
      exact stays position member unfinished different
    · intro next edge
      by_cases ended : next ∈ finished
      · exact .inl ended
      · exact .inr (explores.reaches_top (covered next edge) ended)

/-- The invariant holds until the stack is empty. -/
theorem run (bounded : ∀ position, Reaches successors root position → position < size)
    (explores : Explores successors root stack discovered finished) :
    ∃ everything, Explores successors root [] everything
      (Search.run size successors stack discovered finished) := by
  fun_induction Search.run size successors stack discovered finished with
  | case1 discovered finished => exact ⟨discovered, explores⟩
  | case2 top rest discovered finished bound fresh ih => exact ih (explores.discover fresh)
  | case3 discovered finished top rest bound known ih =>
      exact ih (explores.pop (not_not.mp known))
  | case4 top rest discovered finished outside ih =>
      exact absurd (bounded top (explores.pending top List.mem_cons_self)) outside

/-- When the stack is empty, what can be reached is finished. -/
theorem mem_finished_iff (explores : Explores successors root [] discovered finished) :
    position ∈ finished ↔ Reaches successors root position := by
  have ended (position : Nat) (known : position ∈ discovered) : position ∈ finished := by
    by_contra unfinished
    exact absurd (explores.isOpen position known unfinished).mem List.not_mem_nil
  constructor
  · exact fun member => explores.reached position (explores.found position member)
  · intro reaches
    induction reaches with
    | refl => exact ended root (explores.entered.resolve_right List.not_mem_nil)
    | tail _ edge ih => exact ended _ (explores.closed _ ih _ edge)

end Explores

/-- In an order that leads forward, an edge leads to a later position or closes a loop. -/
theorem LeadsForward.later_or_reaches {order : List Nat} {here next : Nat}
    (forward : LeadsForward successors order) (once : order.Nodup) (listed : here ∈ order)
    (edge : next ∈ successors here) :
    (next ∈ order ∧ order.idxOf here < order.idxOf next) ∨ Reaches successors next here := by
  induction order with
  | nil => exact absurd listed List.not_mem_nil
  | cons first behind ih =>
      obtain ⟨leads, forward⟩ := forward
      obtain ⟨fresh, once⟩ := List.nodup_cons.mp once
      have behind_ne {position : Nat} (member : position ∈ behind) : first ≠ position :=
        fun same => fresh (same ▸ member)
      rcases List.mem_cons.mp listed with rfl | further
      · refine (leads next edge).imp_left fun member => ⟨List.mem_cons_of_mem _ member, ?_⟩
        rw [List.idxOf_cons_self, List.idxOf_cons_ne _ (behind_ne member)]
        exact Nat.succ_pos _
      · refine (ih forward once further).imp_left fun ⟨member, later⟩ =>
          ⟨List.mem_cons_of_mem _ member, ?_⟩
        rw [List.idxOf_cons_ne _ (behind_ne further), List.idxOf_cons_ne _ (behind_ne member)]
        exact Nat.succ_lt_succ later

end Search

namespace Program

variable {program : Program} {here next : Nat}

/-- Whether there is a path along linear edges from one position to another. -/
abbrev Reaches (program : Program) : Nat → Nat → Prop := Search.Reaches program.linearSuccessors

/-- A linear edge leads to a position of the program. -/
theorem lt_of_mem_linearSuccessors (inside : program.linearEdgesInside = true)
    (edge : next ∈ program.linearSuccessors here) : next < program.size := by
  unfold linearSuccessors at edge
  split at edge
  · next block named =>
      have edges := Array.all_eq_true_iff_forall_mem.mp inside block (Array.mem_of_getElem? named)
      exact of_decide_eq_true (List.all_eq_true.mp edges next edge)
  · exact absurd edge List.not_mem_nil

/-- A path that starts in the program stays in it. -/
theorem Reaches.lt (reaches : program.Reaches here next)
    (inside : program.linearEdgesInside = true) (start : here < program.size) :
    next < program.size := by
  cases reaches with
  | refl => exact start
  | tail _ edge => exact lt_of_mem_linearSuccessors inside edge

/-- The positions that the search from the entry finishes, the last one first. -/
def reached (program : Program) : List Nat :=
  Search.run program.size program.linearSuccessors [0] [] []

/-- Edges that stay inside leave an order. -/
theorem reversePostorder_of_inside (inside : program.linearEdgesInside = true) :
    program.reversePostorder =
      .ok (program.reached ++ (List.range program.size).filter (· ∉ program.reached)) := by
  rw [reversePostorder, if_pos inside, reached]

/-- The search from the entry keeps its invariant to the end. -/
theorem explores_reached (inside : program.linearEdgesInside = true)
    (nonempty : 0 < program.size) :
    ∃ everything, Search.Explores program.linearSuccessors 0 [] everything program.reached :=
  (Search.explores_start program.linearSuccessors 0).run fun _ reaches =>
    Reaches.lt reaches inside nonempty

/-- The search finishes the positions that can be reached from the entry. -/
theorem mem_reached_iff (inside : program.linearEdgesInside = true) {position : Nat} :
    position ∈ program.reached ↔ position < program.size ∧ program.Reaches 0 position := by
  constructor
  · intro member
    have bound : position < program.size := Search.lt_of_mem_run (by simp) position member
    obtain ⟨_, explores⟩ := explores_reached inside (Nat.zero_lt_of_lt bound)
    exact ⟨bound, explores.mem_finished_iff.mp member⟩
  · rintro ⟨bound, reaches⟩
    obtain ⟨_, explores⟩ := explores_reached inside (Nat.zero_lt_of_lt bound)
    exact explores.mem_finished_iff.mpr reaches

/-- An edge from a position that can be reached leads forward, or it closes a loop. -/
theorem later_or_reaches (inside : program.linearEdgesInside = true)
    (reaches : program.Reaches 0 here) (edge : next ∈ program.linearSuccessors here)
    (unreached : List Nat) :
    (program.reached ++ unreached).idxOf here < (program.reached ++ unreached).idxOf next ∨
      program.Reaches next here := by
  have nonempty : 0 < program.size :=
    Nat.zero_lt_of_lt (lt_of_mem_linearSuccessors inside edge)
  obtain ⟨_, explores⟩ := explores_reached inside nonempty
  have listed : here ∈ program.reached := explores.mem_finished_iff.mpr reaches
  have once : program.reached.Nodup := Search.nodup_run List.nodup_nil
  refine (explores.forward.later_or_reaches once listed edge).imp_left fun ⟨found, later⟩ => ?_
  rwa [List.idxOf_append_of_mem listed, List.idxOf_append_of_mem found]

/-- The block order of a program whose linear edges lead to its blocks. It is a permutation of the
positions that starts with the entry. The positions that can be reached from the entry come first,
and the others follow in ascending order. An edge from a position that can be reached to one that
does not come later is part of a loop; without loops the order is topological. -/
theorem reversePostorder_leads_forward (program : Program)
    (inside : program.linearEdgesInside = true) :
    ∃ order reached unreached : List Nat,
      program.reversePostorder = .ok order ∧
      order.Perm (List.range program.size) ∧
      (0 < program.size → order.head? = some 0) ∧
      order = reached ++ unreached ∧
      (∀ position, position ∈ reached ↔ position < program.size ∧ program.Reaches 0 position) ∧
      (∀ position, position ∈ unreached ↔
        position < program.size ∧ ¬ program.Reaches 0 position) ∧
      unreached.Pairwise (· < ·) ∧
      (∀ here next, program.Reaches 0 here → next ∈ program.linearSuccessors here →
        ¬ order.idxOf here < order.idxOf next → program.Reaches next here) ∧
      ((∀ position, program.Reaches 0 position →
          ¬ Relation.TransGen (fun here next => next ∈ program.linearSuccessors here)
            position position) →
        ∀ here next, program.Reaches 0 here → next ∈ program.linearSuccessors here →
          order.idxOf here < order.idxOf next) := by
  have ordered := reversePostorder_of_inside inside
  refine ⟨_, program.reached, _, ordered, reversePostorder_perm ordered, ?entry, rfl,
    fun position => mem_reached_iff inside, ?others, ?ascending, ?loops, ?topological⟩
  case entry =>
    intro nonempty
    rw [List.head?_eq_getElem?]
    exact getElem?_zero_reversePostorder nonempty ordered
  case others =>
    intro position
    rw [List.mem_filter, List.mem_range, decide_eq_true_eq, mem_reached_iff inside]
    exact and_congr_right fun bound => not_congr (and_iff_right bound)
  case ascending => exact List.pairwise_lt_range.filter _
  case loops =>
    intro here next reaches edge back
    exact (later_or_reaches inside reaches edge _).resolve_left back
  case topological =>
    intro acyclic here next reaches edge
    refine (later_or_reaches inside reaches edge _).resolve_right fun again => ?_
    exact acyclic here reaches (.head' edge again)

/-- Blocks 2 and 4 form a loop that is entered at both of them. Block 2 is its own successor,
block 4 has the same successor twice, and blocks 1 and 3 cannot be reached. -/
def tangled : Program where
  blocks := #[{ kind := .empty, linearSuccs := [2, 4] }, { kind := .empty, linearSuccs := [0] },
    { kind := .empty, linearSuccs := [2, 4] }, { kind := .empty, linearSuccs := [5] },
    { kind := .empty, linearSuccs := [2, 5, 5] }, { kind := .empty }]

/-- In the tangled program block 2 comes before block 4, and the edge back from block 4 closes the
loop. -/
theorem tangled_leads_forward :
    tangled.linearEdgesInside = true ∧ tangled.reversePostorder = .ok [0, 2, 4, 5, 1, 3] ∧
      ∃ reached unreached, [0, 2, 4, 5, 1, 3] = reached ++ unreached ∧ 4 ∈ reached ∧
        unreached.Pairwise (· < ·) ∧ tangled.Reaches 2 4 := by
  have inside : tangled.linearEdgesInside = true := by simp [tangled, linearEdgesInside, size]
  have ordered : tangled.reversePostorder = .ok [0, 2, 4, 5, 1, 3] := by
    simp [tangled, reversePostorder, linearEdgesInside, linearSuccessors, Search.run, size,
      List.range_succ]
  have branch : tangled.Reaches 0 4 := .single (by decide)
  have back : 2 ∈ tangled.linearSuccessors 4 := by decide
  obtain ⟨order, reached, unreached, same, _, _, split, first, _, ascending, loops, _⟩ :=
    reversePostorder_leads_forward tangled inside
  obtain rfl : [0, 2, 4, 5, 1, 3] = order := by
    rw [ordered] at same
    exact Except.ok.inj same
  exact ⟨inside, ordered, reached, unreached, split, (first 4).mpr ⟨by decide, branch⟩, ascending,
    loops 4 2 branch back (by decide)⟩

end Program

end WaveHazard
