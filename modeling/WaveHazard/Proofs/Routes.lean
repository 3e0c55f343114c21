import WaveHazard.Proofs.Checkpoints
import WaveHazard.Proofs.PostFixpoint

/-! # Runs along the routes of a program

A route follows the edges of a program from its entry and avoids the blocks that are left alone. The
machine runs the rewritten blocks along it. Because the states at the start of the blocks absorb
what their predecessors leave, a relation along which the analysis simulates the machine holds
whenever the machine enters a block, and so does an invariant that the analysis upholds.

Fences and counters in flight pass along the edges of either graph. A register entry passes along
the graph it is visible in, so an invariant about registers needs edges of both graphs.
-/

namespace WaveHazard

open Machine Wait Hazard

namespace Hazard

variable {generation : Generation} {state left : State} {token : Token} {count : Nat}

/-- What is in flight behind a predecessor is in flight in a state that has absorbed it. -/
theorem holds_inFlight_absorbed {counter : Counter} (held : left.inFlight.holds counter = true)
    {logical : Bool} (absorbs : state.Absorbs left logical) :
    state.inFlight.holds counter = true := by
  rw [← (State.join_eq_iff.mp absorbs).1, Counters.holds_or, held, Bool.or_true]

/-- An operation known behind a predecessor is known to a state that has absorbed it. -/
theorem Busy.absorbed {logical : Bool} (busy : Busy generation left token)
    (absorbs : state.Absorbs left logical) : Busy generation state token :=
  ⟨busy.counted, holds_inFlight_absorbed busy.inFlight absorbs⟩

/-- A fence that waits behind a predecessor waits in a state that has absorbed it. -/
theorem FencesAt.absorbed {logical : Bool} {index : Fin storageCount}
    (fences : FencesAt left index token count) (absorbs : state.Absorbs left logical) :
    FencesAt state index token count := by
  have same := (State.join_eq_iff.mp absorbs).2.2.2.2.1 index
  unfold FencesAt at fences ⊢
  rw [← same]
  refine fences.mono (entails_combine_right _ _) ?_ (Nat.le_refl count)
  change Events.holds ((state.fence index).events ||| (left.fence index).events) _ = true
  rw [Events.holds_or, fences.named, Bool.or_true]

/-- An entry follows the graph it is visible in. -/
theorem GuardsAt.absorbed {slot : Slot} {onRead : Bool}
    (guards : GuardsAt left slot onRead token count)
    (absorbs : ∀ logical, state.Absorbs left logical) :
    GuardsAt state slot onRead token count := by
  obtain ⟨entry, found, guard⟩ := guards
  have same := (State.join_eq_iff.mp (absorbs entry.logical)).2.2.2.2.2 slot
  rw [found] at same
  unfold State.joinSlot at same
  dsimp only at same
  rw [if_pos rfl] at same
  cases held : state.registers.get? slot with
  | none =>
      rw [held] at same
      cases same
  | some mine =>
      rw [held] at same
      refine ⟨mine, held, ?_⟩
      rw [← Option.some.inj same]
      exact guard.join_right mine

/-- Fences and counters in flight follow the edges of either graph. -/
theorem Recorded.absorbed {logical : Bool} (recorded : Recorded generation left token count)
    (absorbs : state.Absorbs left logical) : Recorded generation state token count :=
  ⟨recorded.counted, fun index accesses => (recorded.fences index accesses).absorbed absorbs⟩

/-- Fences that know of an operation pass it on along edges of either graph. -/
theorem Fenced.absorbed {logical : Bool} (fenced : Fenced generation left token count)
    (absorbs : state.Absorbs left logical) : Fenced generation state token count :=
  ⟨fenced.toBusy.absorbed absorbs, (fenced.recorded.absorbed absorbs).fences⟩

/-- Register entries follow edges that both graphs have. -/
theorem Guarded.absorbed (guarded : Guarded generation left token count)
    (absorbs : ∀ logical, state.Absorbs left logical) : Guarded generation state token count :=
  ⟨guarded.toBusy.absorbed (absorbs true),
    fun slot written => (guarded.writes slot written).absorbed absorbs,
    fun slot locked => (guarded.locks slot locked).absorbed absorbs, guarded.late⟩

end Hazard

namespace Program

/-- Whether a graph has an edge between two blocks. -/
def HasEdge (program : Program) (graph : Graph) (here next : Nat) : Prop :=
  ∃ inside : here < program.size, next ∈ WellFormed.succs program.blocks[here] graph

/-- Whether one of the graphs has the edge. -/
def EitherEdge (program : Program) (here next : Nat) : Prop :=
  ∃ graph, program.HasEdge graph here next

/-- Whether both graphs have the edge. -/
def BothEdges (program : Program) (here next : Nat) : Prop :=
  ∀ graph, program.HasEdge graph here next

/-- A route from the entry through blocks that are not exempt to a block. The block is not part of
it. -/
inductive Leads (program : Program) (follows : Nat → Nat → Prop) : List Nat → Nat → Prop where
  | start : Leads program follows [] 0
  | step {route : List Nat} {here next : Nat} {block : Block} :
      Leads program follows route here → program.blocks[here]? = some block →
        block.isExempt = false → follows here next → Leads program follows (route ++ [here]) next

/-- The instructions of the blocks along a route. -/
def codeAlong (program : Program) (route : List Nat) : List Instr :=
  route.flatMap fun position => (program.blocks[position]?.map Block.instrs).getD []

/-- A route that is longer by a block has its code at the end. -/
theorem codeAlong_append_singleton {program : Program} {position : Nat} {block : Block}
    (found : program.blocks[position]? = some block) (route : List Nat) :
    program.codeAlong (route ++ [position]) = program.codeAlong route ++ block.instrs := by
  unfold codeAlong
  rw [List.flatMap_append, List.flatMap_singleton, found]
  rfl

end Program

namespace InsertWaits

/-- A block of a rewritten program, the block it comes from, and its run by the analysis. -/
structure Scheduled (setting : Setting) (program rewritten : Program) (position : Nat)
    (source block : Block) (state left : State) (schedule : Schedule) : Prop where
  original : program.blocks[position]? = some source
  found : rewritten.blocks[position]? = some block
  same : block = { source with instrs := block.instrs }
  transfer : source.transfer setting state = .ok (left, schedule)
  lowered : (schedule.lower setting.generation).result = .ok block.instrs

/-- The instructions of a block are instructions of the program. -/
theorem Scheduled.mem_instrs {setting : Setting} {program rewritten : Program} {position : Nat}
    {source block : Block} {state left : State} {schedule : Schedule}
    (scheduled : Scheduled setting program rewritten position source block state left schedule)
    {instr : Instr} (member : instr ∈ source.instrs) : instr ∈ program.instrs :=
  List.mem_flatMap.mpr ⟨source, by simpa using Array.mem_of_getElem? scheduled.original, member⟩

variable {config : Config} {target : Target} {program rewritten : Program}

/-- What the rewrite of a program rests on: states that are a post-fixpoint, and the schedule of
every block that is not exempt. -/
theorem Rewrites.scheduled (edges : WellFormed.checkGraphs program = .ok ())
    (rewrites : Rewrites config target program rewritten) :
    ∃ entry, program.PostFixpoint (config.setting target program) entry ∧
      ∀ position (inside : position < program.size),
        program.blocks[position].isExempt = false → ∃ left schedule block,
          program.leaving (config.setting target program) entry position inside = .ok left ∧
          Scheduled (config.setting target program) program rewritten position
            program.blocks[position] block entry[position] left schedule := by
  obtain ⟨entry, analyzed, blocks⟩ := rewrites.blocks
  have stable := Program.postFixpoint_of_analyze (WellFormed.symmetric_of_checkGraphs edges)
    analyzed
  refine ⟨entry, stable, ?_⟩
  intro position inside visible
  obtain ⟨left, schedule, leaves, transfer, same⟩ := stable.schedule inside visible
  obtain ⟨instrs, placed, found⟩ := blocks position inside
  rw [same] at placed
  exact ⟨left, schedule, _, leaves, Array.getElem?_eq_getElem inside, found, rfl, transfer, placed⟩

/-- An invariant passes along the edges that routes follow, and into the entry. -/
structure Carried (program : Program) (follows : Nat → Nat → Prop)
    (invariant : State → Token → Nat → Prop) : Prop where
  seed : ∀ {state left : State}, (∀ logical, state.Absorbs left logical) →
    ∀ token count, invariant left token count → invariant state token count
  edge : ∀ {here next : Nat} {state left : State}, follows here next →
    (∀ graph, program.HasEdge graph here next → state.Absorbs left graph.isLogical) →
      ∀ token count, invariant left token count → invariant state token count

/-- What fences know of operations is carried along the edges of either graph. -/
theorem carried_fenced (program : Program) (generation : Generation) :
    Carried program program.EitherEdge (Fenced generation) where
  seed absorbs _ _ fenced := fenced.absorbed (absorbs true)
  edge follows absorbs _ _ fenced := by
    obtain ⟨graph, edge⟩ := follows
    exact fenced.absorbed (absorbs graph edge)

/-- What registers know of operations is carried along the edges that both graphs have. -/
theorem carried_guarded (program : Program) (generation : Generation) :
    Carried program program.BothEdges (Guarded generation) where
  seed absorbs _ _ guarded := guarded.absorbed absorbs
  edge follows absorbs _ _ guarded := by
    refine guarded.absorbed fun logical => ?_
    cases logical with
    | false => exact absorbs .linear (follows .linear)
    | true => exact absorbs .logical (follows .logical)

/-- A relation passes along the edges that routes follow, and into the entry. -/
structure Relays (program : Program) (follows : Nat → Nat → Prop)
    (fits : Flight → State → Flight → Prop) : Prop where
  seed : ∀ {issued flight : Flight} {state left : State}, (∀ logical, state.Absorbs left logical) →
    fits issued left flight → fits issued state flight
  edge : ∀ {issued flight : Flight} {here next : Nat} {state left : State}, follows here next →
    (∀ graph, program.HasEdge graph here next → state.Absorbs left graph.isLogical) →
      fits issued left flight → fits issued state flight

/-- An invariant of single operations that is carried is relayed for a whole flight. -/
theorem Carried.relays {follows : Nat → Nat → Prop} {invariant : State → Token → Nat → Prop}
    (carried : Carried program follows invariant) (generation : Generation) :
    Relays program follows fun _ state => Tallied generation (invariant state) where
  seed absorbs tallied := tallied.mono fun token count _ => carried.seed absorbs token count
  edge follows absorbs tallied :=
    tallied.mono fun token count _ => carried.edge follows absorbs token count

/-- When the machine enters a block along a route, the flight fits the state from which the analysis
has run the block, if it fits the entry of the program. -/
theorem Rewrites.simulates (edges : WellFormed.checkGraphs program = .ok ())
    (rewrites : Rewrites config target program rewritten) {allowed : Instr → Prop}
    {fits : Flight → State → Flight → Prop} {follows : Nat → Nat → Prop}
    (simulates : Simulates (config.setting target program) allowed fits)
    (relays : Relays program follows fits) (permitted : ∀ instr ∈ program.instrs, allowed instr)
    {start : Flight}
    (atEntry : ∀ seeded, State.atEntry target.generation ∅ program = .ok seeded →
      fits [] seeded start)
    {route : List Nat} {here : Nat} (leads : program.Leads follows route here)
    {source block : Block} (original : program.blocks[here]? = some source)
    (visible : source.isExempt = false) (found : rewritten.blocks[here]? = some block) :
    ∃ state left schedule,
      Scheduled (config.setting target program) program rewritten here source block state left
        schedule ∧
      ∀ flight, Runs target.generation start (rewritten.codeAlong route) flight →
        fits (launched target.generation (rewritten.codeAlong route)) state flight := by
  obtain ⟨entry, stable, schedules⟩ := rewrites.scheduled edges
  have symmetric := WellFormed.symmetric_of_checkGraphs edges
  -- The induction is over the route; the state at its end is the one of the analysis.
  have enters : ∀ inside : here < program.size, program.blocks[here].isExempt = false →
      ∀ flight, Runs target.generation start (rewritten.codeAlong route) flight →
        fits (launched target.generation (rewritten.codeAlong route)) entry[here] flight := by
    clear original visible found
    induction leads with
    | start =>
        intro inside _ flight runs
        obtain ⟨seeded, seeding, absorbs⟩ := stable.seed inside
        exact relays.seed absorbs (simulates.drains (atEntry seeded seeding) runs.drains)
    | @step route here next block leads found visible follows ih =>
        intro inside exposed flight runs
        obtain ⟨there, same⟩ := Array.getElem?_eq_some_iff.mp found
        subst same
        obtain ⟨left, schedule, block, leaves, scheduled⟩ := schedules here there visible
        rw [Program.codeAlong_append_singleton scheduled.found] at runs ⊢
        obtain ⟨middle, before, after⟩ := runs.split
        have entered := ih there visible middle before
        have ended := (simulates.left_at_end scheduled.transfer scheduled.lowered
          (fun instr member => permitted instr (scheduled.mem_instrs member)) entered after).1
        rw [launched_append]
        refine relays.edge follows ?_ ended
        rintro graph ⟨_, listed⟩
        obtain ⟨_, known⟩ := symmetric.succs there listed
        exact stable.absorbs next inside exposed graph here there known left leaves
  obtain ⟨inside, rfl⟩ := Array.getElem?_eq_some_iff.mp original
  obtain ⟨left, schedule, other, _, scheduled⟩ := schedules here inside visible
  have same : other = block := Option.some.inj (scheduled.found.symm.trans found)
  subst same
  exact ⟨_, left, schedule, scheduled, enters inside visible⟩

/-- When the machine enters a block along a route, an invariant holds of the flight and the state
from which the analysis has run the block. -/
theorem Rewrites.enters (edges : WellFormed.checkGraphs program = .ok ())
    (quiet : program.pendingLocalAccess = false)
    (rewrites : Rewrites config target program rewritten) {strict : Prop}
    {invariant : State → Token → Nat → Prop} {follows : Nat → Nat → Prop}
    (upheld : Upheld (config.setting target program) strict invariant)
    (carried : Carried program follows invariant)
    (single : strict → ∀ instr ∈ program.instrs, HasSingleResult target.generation instr)
    {route : List Nat} {here : Nat} (leads : program.Leads follows route here)
    {source block : Block} (original : program.blocks[here]? = some source)
    (visible : source.isExempt = false) (found : rewritten.blocks[here]? = some block) :
    ∃ state left schedule,
      Scheduled (config.setting target program) program rewritten here source block state left
        schedule ∧
      ∀ flight, Runs target.generation (entryFlight target.generation program)
          (rewritten.codeAlong route) flight →
        Tallied target.generation (invariant state) flight :=
  rewrites.simulates edges upheld.simulates (carried.relays target.generation)
    (fun instr member wanted => single wanted instr member)
    (fun _ seeding => upheld.atEntry quiet seeding) leads original visible found

end InsertWaits

end WaveHazard
