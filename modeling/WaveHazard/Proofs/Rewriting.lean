import WaveHazard.Pass.InsertWaits
import WaveHazard.Pass.WellFormed
import WaveHazard.Proofs.Outcome

/-! # What a rewritten program consists of

A program is rewritten block by block from the states the analysis found, and nothing but the
instructions of its blocks changes. The graphs of a program that passed validation are the same
whether they are read from the sources or from the targets of their edges.
-/

namespace WaveHazard

open Machine Hazard

/-- Whether register entries that are visible along the logical control flow only follow the
edges of the graph. -/
def Graph.isLogical : Graph → Bool
  | .linear => false
  | .logical => true

namespace InsertWaits

/-- Inserting waits turns the first program into the second. -/
def Rewrites (config : Config) (target : Target) (program rewritten : Program) : Prop :=
  ∃ before after : Session Unit, before.program = program ∧
    (insert config target).run before = (.ok (), after) ∧ after.program = rewritten

/-- A block, run from a state, is replaced by its schedule. -/
def Schedules (setting : Setting) (pair : Block × State) (block : Block) : Prop :=
  ∃ instrs, (scheduleBlock setting pair.1 pair.2).result = .ok instrs ∧
    block = { pair.1 with instrs }

/-- Every block is replaced by its schedule. -/
theorem blocks_of_placeWaits {σ : Type} {setting : Setting} {pairs : List (Block × State)}
    {blocks : List Block} {before after : Session σ}
    (placed : (placeWaits setting pairs).run before = (.ok blocks, after)) :
    List.Forall₂ (Schedules setting) pairs blocks := by
  induction pairs generalizing blocks before after with
  | nil =>
      cases placed
      exact .nil
  | cons pair rest ih =>
      rcases pair with ⟨block, state⟩
      obtain ⟨_, _, _, lowering⟩ := Walk.run_bind_eq_ok.mp placed
      obtain ⟨instrs, _, lowered, remaining⟩ := Walk.run_bind_eq_ok.mp lowering
      obtain ⟨others, _, placedRest, done⟩ := Walk.run_bind_eq_ok.mp remaining
      cases done
      exact .cons ⟨instrs, (Walk.run_ofFault_eq_ok.mp lowered).1, rfl⟩ (ih placedRest)

/-- A rewritten program consists of the schedules of its blocks, run from the states of an analysis
that ended. -/
theorem Rewrites.schedules {config : Config} {target : Target} {program rewritten : Program}
    (rewrites : Rewrites config target program rewritten) :
    ∃ entry blocks,
      (program.analyze (config.setting target program) config.maxVisits).entry = .ok entry ∧
        List.Forall₂ (Schedules (config.setting target program))
          (program.blocks.toList.zip entry.toList) blocks ∧
        rewritten = { program with blocks := blocks.toArray } := by
  obtain ⟨before, after, rfl, inserted, rfl⟩ := rewrites
  obtain ⟨session, _, got, inserting⟩ := Walk.run_bind_eq_ok.mp inserted
  cases got
  obtain ⟨_, _, _, analyzing⟩ := Walk.run_bind_eq_ok.mp inserting
  obtain ⟨entry, _, analyzed, reporting⟩ := Walk.run_bind_eq_ok.mp analyzing
  obtain ⟨_, _, _, placing⟩ := Walk.run_bind_eq_ok.mp reporting
  obtain ⟨blocks, _, placed, storing⟩ := Walk.run_bind_eq_ok.mp placing
  cases storing
  exact ⟨entry, blocks, (Walk.run_ofFault_eq_ok.mp analyzed).1, blocks_of_placeWaits placed, rfl⟩

/-- A rewritten program comes from the states of an analysis that ended, block by block. -/
theorem Rewrites.blocks {config : Config} {target : Target} {program rewritten : Program}
    (rewrites : Rewrites config target program rewritten) :
    ∃ entry, (program.analyze (config.setting target program) config.maxVisits).entry = .ok entry ∧
      ∀ position (inside : position < program.size), ∃ instrs,
        (scheduleBlock (config.setting target program) program.blocks[position]
          entry[position]).result = .ok instrs ∧
        rewritten.blocks[position]? = some { program.blocks[position] with instrs } := by
  obtain ⟨entry, blocks, analyzed, all, rfl⟩ := rewrites.schedules
  refine ⟨entry, analyzed, ?_⟩
  intro position inside
  have states : entry.toList.length = program.size := entry.length_toList
  have short : position < (program.blocks.toList.zip entry.toList).length := by
    rw [List.length_zip, Array.length_toList, states]
    exact Nat.lt_min.mpr ⟨inside, inside⟩
  have long : position < blocks.length := by rwa [← all.length_eq]
  have pair : (program.blocks.toList.zip entry.toList).get ⟨position, short⟩ =
      (program.blocks[position], entry[position]) := by
    rw [List.get_eq_getElem, List.getElem_zip, Array.getElem_toList]
    rfl
  obtain ⟨instrs, lowered, rewritten⟩ := all.get short long
  rw [pair] at lowered rewritten
  refine ⟨instrs, lowered, ?_⟩
  have found : blocks.toArray[position]? = some blocks[position] := by
    rw [List.getElem?_toArray, List.getElem?_eq_getElem long]
  exact found.trans (congrArg some rewritten)

end InsertWaits

namespace WellFormed

/-- Edges of a program that passed validation lead to blocks that know of them, in both
directions. -/
structure Symmetric (program : Program) : Prop where
  succs : ∀ {position succ : Nat} {graph : Graph} (inside : position < program.size),
    succ ∈ succs program.blocks[position] graph →
      ∃ there : succ < program.size, position ∈ preds program.blocks[succ] graph
  preds : ∀ {position pred : Nat} {graph : Graph} (inside : position < program.size),
    pred ∈ preds program.blocks[position] graph →
      ∃ there : pred < program.size, position ∈ WellFormed.succs program.blocks[pred] graph

/-- The successors of a block exist and know the block. -/
theorem mem_preds_of_checkSuccs {program : Program} {graph : Graph} {position : Nat}
    {block : Block} (checked : checkSuccs program graph position block = .ok ()) {succ : Nat}
    (member : succ ∈ succs block graph) :
    ∃ there : succ < program.size, position ∈ preds program.blocks[succ] graph := by
  have found := Outcome.forM_eq_ok.mp checked succ member
  split at found
  · cases found
  · rename_i next present
    obtain ⟨there, same⟩ := Array.getElem?_eq_some_iff.mp present
    subst same
    split at found
    · exact ⟨there, ‹_›⟩
    · cases found

/-- The predecessors of a block know the block. -/
theorem mem_succs_of_checkPreds {program : Program} {graph : Graph} {position : Nat}
    {block : Block} (checked : checkPreds program graph position block = .ok ()) {pred : Nat}
    (member : pred ∈ preds block graph) (there : pred < program.size) :
    position ∈ succs program.blocks[pred] graph := by
  have found := Outcome.forM_eq_ok.mp checked pred member
  rw [Array.getElem?_eq_getElem there] at found
  simp only at found
  split at found
  · assumption
  · cases found

/-- The predecessors of a block exist. -/
theorem lt_of_checkPredsExist {program : Program} {graph : Graph} {position : Nat}
    {block : Block} (checked : checkPredsExist program position block = .ok ()) {pred : Nat}
    (member : pred ∈ preds block graph) : pred < program.size := by
  have listed : pred ∈ block.linearPreds ++ block.logicalPreds := by
    cases graph
    · exact List.mem_append_left _ member
    · exact List.mem_append_right _ member
  have found := Outcome.forM_eq_ok.mp checked pred listed
  split at found
  · assumption
  · cases found

/-- A program that passed the check of its graphs has its edges known at both ends. -/
theorem symmetric_of_checkGraphs {program : Program} (checked : checkGraphs program = .ok ()) :
    Symmetric program := by
  have edges {position : Nat} (inside : position < program.size) :
      checkEdges program position program.blocks[position] = .ok () := by
    have listed : (program.blocks[position], position) ∈ program.blocks.toList.zipIdx := by
      rw [List.mem_zipIdx_iff_getElem?]
      simp [Array.getElem?_eq_getElem inside]
    exact Outcome.forM_eq_ok.mp checked _ listed
  constructor
  · intro position succ graph inside member
    obtain ⟨_, linear, rest⟩ := Outcome.bind_eq_ok.mp (edges inside)
    obtain ⟨_, logical, _⟩ := Outcome.bind_eq_ok.mp rest
    cases graph
    · exact mem_preds_of_checkSuccs linear member
    · exact mem_preds_of_checkSuccs logical member
  · intro position pred graph inside member
    obtain ⟨_, _, rest⟩ := Outcome.bind_eq_ok.mp (edges inside)
    obtain ⟨_, _, rest⟩ := Outcome.bind_eq_ok.mp rest
    obtain ⟨_, exist, rest⟩ := Outcome.bind_eq_ok.mp rest
    obtain ⟨_, linear, logical⟩ := Outcome.bind_eq_ok.mp rest
    have there := lt_of_checkPredsExist exist member
    refine ⟨there, ?_⟩
    cases graph
    · exact mem_succs_of_checkPreds linear member there
    · exact mem_succs_of_checkPreds logical member there

/-- A program with its edges known at both ends passes the check. -/
theorem checkGraphs_of_symmetric {program : Program} (symmetric : Symmetric program) :
    checkGraphs program = .ok () := by
  refine Outcome.forM_eq_ok.mpr ?_
  rintro ⟨block, position⟩ listed
  rw [List.mem_zipIdx_iff_getElem?, Array.getElem?_toList] at listed
  dsimp only at listed
  obtain ⟨inside, rfl⟩ := Array.getElem?_eq_some_iff.mp listed
  have succs (graph : Graph) :
      checkSuccs program graph position program.blocks[position] = .ok () := by
    refine Outcome.forM_eq_ok.mpr fun succ member => ?_
    obtain ⟨there, known⟩ := symmetric.succs inside member
    rw [Array.getElem?_eq_getElem there]
    exact if_pos known
  have preds (graph : Graph) :
      checkPreds program graph position program.blocks[position] = .ok () := by
    refine Outcome.forM_eq_ok.mpr fun pred member => ?_
    obtain ⟨there, known⟩ := symmetric.preds inside member
    rw [Array.getElem?_eq_getElem there]
    exact if_pos known
  have exist : checkPredsExist program position program.blocks[position] = .ok () := by
    refine Outcome.forM_eq_ok.mpr fun pred member => ?_
    rcases List.mem_append.mp member with linear | logical
    · obtain ⟨there, _⟩ := @symmetric.preds position pred .linear inside linear
      exact if_pos there
    · obtain ⟨there, _⟩ := @symmetric.preds position pred .logical inside logical
      exact if_pos there
  refine Outcome.bind_eq_ok.mpr ⟨(), succs .linear, Outcome.bind_eq_ok.mpr ⟨(), succs .logical, ?_⟩⟩
  refine Outcome.bind_eq_ok.mpr ⟨(), exist, Outcome.bind_eq_ok.mpr ⟨(), preds .linear, ?_⟩⟩
  exact preds .logical

end WellFormed

end WaveHazard
