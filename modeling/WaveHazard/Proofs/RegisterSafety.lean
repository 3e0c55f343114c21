import WaveHazard.Proofs.Completion
import WaveHazard.Proofs.Needs
import WaveHazard.Proofs.Routes

/-! # Registers are settled when they are used

When the rewritten program issues an instruction, no operation in flight still has to write a
register that the instruction reads, and none still has to read a register that it writes. A
register that it writes may only be awaiting results that the machine delivers before those of the
instruction: operations of the same ordered event.
-/

namespace WaveHazard

open Machine Wait Hazard

namespace Hazard

variable {generation : Generation} {instr : Instr}

/-- Scalar memory completes out of order, and so do flat accesses before GFX10. -/
theorem isUnordered_single (event : Event) :
    generation.isUnordered (.single event) =
      (event == .smem || (event == .flat && decide (generation < .gfx10))) := by
  unfold Generation.isUnordered Generation.unordered
  split
  · rename_i older
    rw [decide_eq_true older]
    cases event <;> decide
  · rename_i newer
    rw [decide_eq_false newer]
    cases event <;> decide

/-- An access with a kind is a vector memory access. -/
theorem operationsOf_of_loadKind (access : (loadKind instr).isEmpty = false) :
    operationsOf generation instr = vectorMemoryOperations generation instr := by
  have encoding : instr.encoding = .mubuf ∨ instr.encoding = .mtbuf ∨ instr.encoding = .mimg ∨
      instr.encoding = .global ∨ instr.encoding = .scratch := by
    unfold loadKind at access
    split at access
    · rename_i bvh
      unfold Instr.encoding
      rw [bvh]
      decide
    · split at access
      · rename_i sampled
        rw [Bool.and_eq_true] at sampled
        exact .inr (.inr (.inl (beq_iff_eq.mp sampled.1)))
      · split at access
        · rename_i plain
          simp only [Bool.or_eq_true, beq_iff_eq, Instr.isVectorMemory] at plain
          cases found : instr.encoding <;> simp_all [Encoding.isVectorMemory]
        · cases access
  exact operationsOf_of_vectorMemory encoding

/-- A load of vector memory is one of its operations and writes its results. -/
theorem exists_vectorMemoryOperation :
    ∃ operation ∈ vectorMemoryOperations generation instr,
      operation.event = loadEvent generation instr (loadKind instr) ∧
        operation.writes = resolved instr.writes := by
  rw [vectorMemoryOperations_eq]
  exact ⟨_, List.mem_cons_self, rfl, rfl⟩

/-- Loads of vector memory complete in order. -/
theorem loadEvent_ordered (kind : LoadKind) :
    generation.isUnordered (.single (loadEvent generation instr kind)) = false := by
  rw [isUnordered_single]
  unfold loadEvent
  split
  · rfl
  · split
    · split <;> rfl
    · rfl

/-- The counter of exports does not count loads of vector memory. -/
theorem loadEvent_not_exp (kind : LoadKind) :
    (generation.counted .exp).holds (loadEvent generation instr kind) = false := by
  unfold loadEvent
  split
  · exact generation.holds_counted .exp .vmemStore
  · split
    · split
      · exact generation.holds_counted .exp .vmemBvh
      · exact generation.holds_counted .exp .vmemSample
    · exact generation.holds_counted .exp .vmem

/-- A write stays in order behind producers of the same event only. They are ordered, they are not
register locks, and the instruction itself sets an operation of that event in motion. -/
theorem of_inOrderBehind {entry : Entry} {counter : Counter} {event : Event}
    (behind : State.inOrderBehind generation instr entry counter = true)
    (named : entry.events.holds event = true)
    (counted : (generation.counted counter).holds event = true) :
    generation.isUnordered (.single event) = false ∧
      (generation.counted .exp).holds event = false ∧
      ∃ operation ∈ operationsOf generation instr, operation.event = event ∧
        operation.writes = resolved instr.writes := by
  have only {single : Event} {on : Counter} (onCounter : (generation.counted on).holds event = true)
      (exact : entry.events &&& generation.counted on = Events.single single) : single = event := by
    apply Events.eq_of_holds_of_eq_single exact
    rw [Events.holds_and, named, onCounter]
    rfl
  unfold State.inOrderBehind at behind
  simp only [Bool.or_eq_true, Bool.and_eq_true, Bool.not_eq_true', beq_iff_eq] at behind
  rcases behind with ⟨⟨⟨access, _⟩, exact⟩, _⟩ | ⟨⟨shares, onShare⟩, exact⟩
  · have same := only counted exact
    subst same
    rw [operationsOf_of_loadKind access]
    exact ⟨loadEvent_ordered _, loadEvent_not_exp _, exists_vectorMemoryOperation⟩
  · rw [onShare] at counted
    have same := only counted exact
    have encoding : instr.encoding = .ds := beq_iff_eq.mp shares
    unfold operationsOf
    rw [encoding]
    dsimp only
    subst same
    split
    · rw [isUnordered_single, generation.holds_counted]
      exact ⟨rfl, rfl, _, List.mem_cons_self, rfl, rfl⟩
    · rw [isUnordered_single, generation.holds_counted]
      exact ⟨rfl, rfl, _, List.mem_cons_self, rfl, rfl⟩

/-- No operation in flight gets in the way of an instruction that reads and writes the given
registers and sets the given operations in motion. -/
structure Settled (generation : Generation) (footprint : Footprint) (operations : List Operation)
    (flight : Flight) : Prop where
  /-- What is read has been written. -/
  reads : ∀ token ∈ flight, ∀ slot ∈ footprint.reads, slot ∉ token.operation.writes
  /-- What is written has been read. -/
  locks : ∀ token ∈ flight, ∀ slot ∈ footprint.writes, slot ∉ token.operation.locks
  /-- Of what is written, only results of an ordered event are due that the instruction delivers a
  result of as well. -/
  writes : ∀ token ∈ flight, ∀ slot ∈ footprint.writes, slot ∈ token.operation.writes →
    token.isUnordered generation = false ∧ ∃ operation ∈ operations,
      operation.event = token.operation.event ∧ slot ∈ operation.writes

/-- The footprint of an instruction writes what the instruction writes. -/
theorem resolved_of_footprint {footprint : Footprint}
    (touches : instr.footprint = .ok footprint) : footprint.writes = resolved instr.writes := by
  obtain ⟨reads, _, touches⟩ := Outcome.bind_eq_ok.mp touches
  obtain ⟨writes, writing, touches⟩ := Outcome.bind_eq_ok.mp touches
  cases touches
  exact (resolved_of_sequenceSlots writing).symm

/-- Where the waits of an instruction are over, its registers are settled. -/
theorem settled_of_require {setting : Setting} {state after : State} {queue asked : Queue}
    {footprint : Footprint} {sync : Sync} (touches : instr.footprint = .ok footprint)
    (required : state.require setting queue instr footprint sync = (after, asked))
    {flight : Flight}
    (tallied : Tallied setting.generation (Guarded setting.generation state) flight)
    (met : Met asked.wait flight) :
    Settled setting.generation footprint (operationsOf setting.generation instr) flight := by
  have needed := (of_require required).1.trans (entails_combine_right _ _)
  -- A hazard that the needs include is over, so the operation behind it is not in flight.
  have settles {older younger : Flight} {token : Token} (split : flight = older ++ token :: younger)
      {entry : Entry} {onRead : Bool}
      (guard : entry.Guards onRead token (room setting.generation token younger))
      (hazard : ∀ queue, EntailsAt token.counter
        (state.registerHazards setting instr footprint queue).wait entry.wait) : False := by
    subst split
    have busy := (tallied older token younger rfl).inFlight
    exact guard.awaits.absurd_of_met rfl
      ((needed.at token.counter).trans (State.entailsAt_needs busy hazard sync queue.delay)) met
  constructor
  · intro token member slot read written
    obtain ⟨older, younger, split⟩ := List.append_of_mem member
    obtain ⟨entry, found, guard⟩ := (tallied older token younger split).writes slot written
    exact settles split guard fun queue =>
      state.entailsAt_of_read setting read found (guard.read rfl) token.counter instr queue
  · intro token member slot written locked
    obtain ⟨older, younger, split⟩ := List.append_of_mem member
    have guarded := tallied older token younger split
    obtain ⟨entry, found, guard⟩ := guarded.locks slot locked
    refine settles split guard fun queue => state.entailsAt_of_write setting written found ?_ queue
    cases behind : State.inOrderBehind setting.generation instr entry token.counter with
    | false => rfl
    | true =>
        have early := (of_inOrderBehind behind guard.awaits.named guarded.counted).2.1
        rw [guarded.late (List.ne_nil_of_mem locked)] at early
        cases early
  · intro token member slot written due
    obtain ⟨older, younger, split⟩ := List.append_of_mem member
    have guarded := tallied older token younger split
    obtain ⟨entry, found, guard⟩ := guarded.writes slot due
    cases behind : State.inOrderBehind setting.generation instr entry token.counter with
    | false =>
        exact (settles split guard fun queue =>
          state.entailsAt_of_write setting written found behind queue).elim
    | true =>
        obtain ⟨ordered, _, operation, launched, same, writes⟩ :=
          of_inOrderBehind behind guard.awaits.named guarded.counted
        refine ⟨ordered, operation, launched, same, ?_⟩
        rw [writes, ← resolved_of_footprint touches]
        exact written

end Hazard

namespace InsertWaits

/-- Along every route over edges that both graphs have and for every order in which operations
leave, the registers of every ordinary instruction are settled when it is issued. -/
theorem registers_settled_at_issue {config : Config} {target : Target}
    {program rewritten : Program} (edges : WellFormed.checkGraphs program = .ok ())
    (single : ∀ instr ∈ program.instrs, HasSingleResult target.generation instr)
    (quiet : program.pendingLocalAccess = false)
    (rewrites : Rewrites config target program rewritten) {route : List Nat} {here : Nat}
    (leads : program.Leads program.BothEdges route here) {source block : Block}
    (original : program.blocks[here]? = some source) (visible : source.isExempt = false)
    (found : rewritten.blocks[here]? = some block) {passed rest : List Instr} {instr : Instr}
    (whole : block.instrs = passed ++ instr :: rest)
    (ordinary : isOrdinary target.generation instr = true) {flight : Flight}
    (runs : Runs target.generation (entryFlight target.generation program)
      (rewritten.codeAlong route ++ passed) flight)
    (unblocked : Met (blocksOn target.generation instr) flight) :
    ∃ footprint, instr.footprint = .ok footprint ∧
      Settled target.generation footprint (operationsOf target.generation instr) flight := by
  have upheld := upheld_guarded (config.setting target program)
  obtain ⟨state, left, schedule, scheduled, enters⟩ := rewrites.enters edges quiet upheld
    (carried_guarded program target.generation) (fun _ => single) leads original visible found
  obtain ⟨start, before, after⟩ := runs.split
  have stands : Stands target.generation start passed (instr :: rest) flight :=
    ⟨after, fun _ _ here => by cases here; exact ⟨ordinary, unblocked⟩⟩
  obtain ⟨earlier, origin, later, place, kept, count⟩ :=
    exists_source scheduled.transfer scheduled.lowered whole ordinary
  have alone : ∀ instr ∈ earlier, True → HasSingleResult target.generation instr := by
    intro instr member _
    refine single instr (scheduled.mem_instrs ?_)
    rw [place]
    exact List.mem_append_left _ member
  obtain ⟨middle, queue, footprint, next, asked, touches, required, tallied, met, emitted⟩ :=
    required_at upheld scheduled.transfer scheduled.lowered place alone whole count
      (enters start before) stands
  obtain ⟨ready, _, copied⟩ := emitted kept
  obtain ⟨rfl, rfl⟩ := List.cons.inj copied
  refine ⟨footprint, ?_, ?_⟩
  · rw [← touches]
    unfold absorbExports
    split <;> rfl
  · rw [operationsOf_absorbExports]
    exact settled_of_require touches required tallied met

namespace StoreLoadMove

/-- A store to a buffer. -/
def store : Instr := { opcode := .bufferStoreDword, payload := .memory (.ofStorage .buffer) }

/-- A scalar load. -/
def load : Instr where
  opcode := .sLoadDword
  operands := [.reg ⟨2⟩ (.scalar 2)]
  definitions := [⟨⟨0⟩, .scalar 1⟩]

/-- A use of the register that is loaded. -/
def move : Instr where
  opcode := .sMovB32
  operands := [.reg ⟨0⟩ (.scalar 1)]
  definitions := [⟨⟨1⟩, .scalar 1⟩]

/-- The wait for the load alone. -/
def waitForLoad : Instr := .immediate .sWaitcnt 49279

/-- The store in flight. -/
def stored : Token := ⟨{ event := .vmem, sync := .ofStorage .buffer }, .vm⟩

/-- The load in flight. -/
def loaded : Token := ⟨{ event := .smem, writes := [0] }, .lgkm⟩

/-- A store, a load and a use of what was loaded. -/
def block : Block := { kind := .flag 0, instrs := [store, load, move] }

/-- A wait is placed in front of the use of the loaded register. -/
theorem rewrites : Rewrites { forceWaits := false, maxVisits := 1 } (.ofGeneration .gfx9)
    { blocks := #[block] }
    { blocks := #[{ block with instrs := [store, load, waitForLoad, move] }] } :=
  rewrites_single (by decide) (by decide) (by decide)
    (Outcome.eq_ok_of_toOption (by decide +kernel))

/-- Behind the wait only the store is in flight. -/
theorem runs : Runs .gfx9 [] [store, load, waitForLoad] [stored] := by
  refine .issue (by decide) (.issue (by decide) ?_)
  change Runs .gfx9 [stored, loaded] [waitForLoad] [stored]
  refine .retire (.leave [stored] loaded [] (.inl rfl)) ?_
  exact .issue (by decide) (.done _)

end StoreLoadMove

open StoreLoadMove in
/-- When the load is used, the store in front of it is in flight but not in the way. -/
theorem registers_settled_at_move :
    Runs .gfx9 [] [store, load, waitForLoad] [stored] ∧
      Settled .gfx9 { reads := [0], writes := [1] } [] [stored] := by
  refine ⟨runs, ?_⟩
  obtain ⟨footprint, touches, settled⟩ := registers_settled_at_issue (by decide) (by decide) rfl
    StoreLoadMove.rewrites .start rfl (by decide) rfl rfl (by decide) runs (by decide)
  cases touches
  exact settled

end InsertWaits

end WaveHazard
