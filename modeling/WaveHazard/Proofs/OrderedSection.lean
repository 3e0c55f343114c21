import WaveHazard.Proofs.ScalarStores

/-! # Leaving the ordered section of overlapped pixel shaders

Pixel shaders that cover the same pixels take turns in an ordered section. Where the hardware asks
for it, the memory accesses of a section must be over before the section is left. The counters that
are drained for this are those of vector loads and stores, and the one of local memory if the
program loads through scalar memory.

Before GFX12 these are the counters of all vector memory and of scalar memory. GFX12 counts sampler
loads, ray-tracing loads and scalar memory on counters of their own, which nobody drains: there a
section is left while such accesses are in flight.
-/

namespace WaveHazard

open Machine Wait Hazard

namespace Hazard

variable {generation : Generation} {setting : Setting} {state after : State}

/-- Whether the event is an access to vector memory. -/
def Event.isVectorMemory : Event → Bool
  | vmem | vmemStore | vmemSample | vmemBvh => true
  | _ => false

/-- Vector memory is on the counters of loads and of stores. -/
theorem counter_of_vmem {counter : Counter} {event : Event}
    (counted : (generation.counted counter).holds event = true)
    (plain : event = .vmem ∨ event = .vmemStore) : counter = .vm ∨ counter = .vs := by
  revert counted
  rcases plain with rfl | rfl <;> cases generation <;> cases counter <;> decide

/-- Before GFX12 sampler and ray-tracing loads are not told apart from other loads. -/
theorem eq_vmem_of_isVectorMemory (early : generation < .gfx12) {counter : Counter} {event : Event}
    (counted : (generation.counted counter).holds event = true)
    (vector : event.isVectorMemory = true) : event = .vmem ∨ event = .vmemStore := by
  cases event with
  | vmem => exact .inl rfl
  | vmemStore => exact .inr rfl
  | vmemSample | vmemBvh =>
      revert early counted
      cases generation <;> cases counter <;> decide
  | _ => cases vector

/-- Waiting for exports on its own does not change whether an instruction leaves the section. -/
theorem leavesOrderedSection_absorbExports (queue : Queue) (instr : Instr) :
    leavesOrderedSection generation (absorbExports queue instr).instr =
      leavesOrderedSection generation instr := by
  unfold absorbExports
  split
  · rename_i waitExp bound payload _
    simp [leavesOrderedSection, Instr.imm?, payload]
  · rfl

/-- The counters of everything in flight are known, apart from those of accesses to local memory,
which an earlier shader part may have left in flight. -/
structure KnowsCounters (generation : Generation) (state : State) (flight : Flight) : Prop where
  counted : Counted generation flight
  busy : ∀ token ∈ flight, token.isLocal = false → state.inFlight.holds token.counter = true

/-- What is known of the counters stays true from instruction to instruction. -/
theorem simulates_knowsCounters (setting : Setting) :
    Simulates setting (fun _ => True) fun _ => KnowsCounters setting.generation where
  counted knows := knows.counted
  drains knows drains :=
    ⟨knows.counted.drains drains,
      fun token member => knows.busy token (mem_of_drains drains member)⟩
  require knows required met :=
    ⟨knows.counted, fun token member other =>
      holds_inFlight_require (knows.busy token member other) required (met.get_ne_zero member)⟩
  issueAll := by
    intro _ flight state after instr knows issued _
    refine ⟨knows.counted.issue instr, ?_⟩
    intro token member other
    rcases List.mem_append.mp member with older | newer
    · exact holds_inFlight_issueAll (knows.busy token older other) issued
    · exact holds_inFlight_of_launch issued newer

/-- Counters known behind a predecessor are known to a state that has absorbed it. -/
theorem KnowsCounters.absorbed {flight : Flight} {left : State} {logical : Bool}
    (knows : KnowsCounters generation left flight) (absorbs : state.Absorbs left logical) :
    KnowsCounters generation state flight where
  counted := knows.counted
  busy token member other := holds_inFlight_absorbed (knows.busy token member other) absorbs

/-- When a program starts, the counter of the loads of its arguments is known to be in flight. -/
theorem knowsCounters_inherited {program : Program} {seeded : State}
    (seeding : State.atEntry setting.generation ∅ program = .ok seeded) (accesses : Nat) :
    KnowsCounters setting.generation seeded
      (inheritedFlight setting.generation program accesses) := by
  have arguments := (upheld_fenced setting).arguments .nil seeding
  rw [List.nil_append] at arguments
  have known : ∀ token ∈ inheritedFlight setting.generation program accesses,
      (setting.generation.counted token.counter).holds token.operation.event = true ∧
        (token.isLocal = false → seeded.inFlight.holds token.counter = true) := by
    intro token member
    obtain ⟨operation, listed, launched⟩ := List.mem_flatMap.mp member
    refine ⟨(mem_tokens.mp launched).1 ▸ (mem_tokens.mp launched).2, fun other => ?_⟩
    rcases List.mem_append.mp listed with inherited | argument
    · rw [← (mem_tokens.mp launched).1] at inherited
      rw [Token.isLocal, List.eq_of_mem_replicate inherited] at other
      cases other
    · obtain ⟨_, fenced⟩ := arguments.of_mem (List.mem_flatMap.mpr ⟨operation, argument, launched⟩)
      exact fenced.inFlight
  exact ⟨fun token member => (known token member).1, fun token member => (known token member).2⟩

/-- An instruction that leaves the section needs the counters of the section to drain. -/
theorem get_needs_of_leaves {instr : Instr}
    (erratum : setting.target.errata.overlappedWaves = true)
    (leaves : leavesOrderedSection setting.generation instr = true) {counter : Counter}
    (chosen : state.orderedSectionCounters setting counter = true) (footprint : Footprint)
    (sync : Sync) (delay : Delay) :
    (state.needs setting instr footprint sync delay).wait.get counter = some 0 := by
  have busy : state.inFlight.holds counter = true := (Bool.and_eq_true_iff.mp chosen).1
  refine State.get_needs_of_starts busy (fun _ starts => starts.orderedSection erratum leaves) ?_
    footprint sync delay
  rw [Requirement.get_drain, if_pos chosen]

/-- Once the waits of an instruction that leaves the section are over, nothing is in flight on the
counters of the section. -/
theorem counter_of_leaves {queue asked : Queue} {instr : Instr} {footprint : Footprint}
    {sync : Sync}
    (required : state.require setting queue instr footprint sync = (after, asked))
    (erratum : setting.target.errata.overlappedWaves = true)
    (leaves : leavesOrderedSection setting.generation instr = true) {flight : Flight}
    (knows : KnowsCounters setting.generation state flight) (met : Met asked.wait flight)
    {token : Token} (member : token ∈ flight) (other : token.isLocal = false) :
    token.counter ≠ .vm ∧ token.counter ≠ .vs ∧
      (setting.scalarLoads = true → token.counter ≠ .lgkm) := by
  have busy := knows.busy token member other
  have idle : state.orderedSectionCounters setting token.counter = false := by
    by_contra chosen
    have needed := get_needs_of_leaves erratum leaves (Bool.of_not_eq_false chosen) footprint sync
      queue.delay
    obtain ⟨bound, drained, least⟩ :=
      ((of_require required).1.trans (entails_combine_right _ _)) token.counter 0 needed
    rw [Nat.le_zero.mp least] at drained
    exact met.get_ne_zero member drained
  unfold State.orderedSectionCounters at idle
  rw [busy, Bool.true_and] at idle
  refine ⟨?_, ?_, fun scalar => ?_⟩
  · intro here
    rw [here] at idle
    cases idle
  · intro here
    rw [here] at idle
    cases idle
  · intro here
    rw [here, scalar] at idle
    cases idle

end Hazard

namespace InsertWaits

/-- What is known of the counters is passed on along the edges of both graphs. -/
theorem relays_knowsCounters (program : Program) (generation : Generation) :
    Relays program program.EitherEdge fun _ => KnowsCounters generation where
  seed absorbs knows := knows.absorbed (absorbs true)
  edge follows absorbs knows := by
    obtain ⟨graph, edge⟩ := follows
    exact knows.absorbed (absorbs graph edge)

/-- Along every route over the edges of either graph and for every order in which operations leave:
where the hardware asks for it, no load or store of vector memory is in flight when an instruction
that leaves the ordered section is issued, sampler and ray-tracing loads on GFX12 excepted. Before
GFX12 nothing of vector memory is, and nothing of scalar memory if the program loads through it. -/
theorem ordered_section_over_at_issue {config : Config} {target : Target}
    {program rewritten : Program} (edges : WellFormed.checkGraphs program = .ok ())
    (rewrites : Rewrites config target program rewritten)
    (erratum : target.errata.overlappedWaves = true) (accesses : Nat) {route : List Nat}
    {here : Nat} (leads : program.Leads program.EitherEdge route here) {source block : Block}
    (original : program.blocks[here]? = some source) (visible : source.isExempt = false)
    (found : rewritten.blocks[here]? = some block) {passed rest : List Instr} {instr : Instr}
    (whole : block.instrs = passed ++ instr :: rest)
    (leaves : leavesOrderedSection target.generation instr = true) {flight : Flight}
    (stands : Stands target.generation (inheritedFlight target.generation program accesses)
      (rewritten.codeAlong route ++ passed) (instr :: rest) flight) :
    (∀ token ∈ flight, token.operation.event ≠ .vmem ∧ token.operation.event ≠ .vmemStore) ∧
    (target.generation < .gfx12 →
      (∀ token ∈ flight, token.operation.event.isVectorMemory = false) ∧
      (program.scalarLoads = true → ∀ token ∈ flight, token.operation.event ≠ .smem)) := by
  have simulates := simulates_knowsCounters (config.setting target program)
  obtain ⟨state, left, schedule, scheduled, enters⟩ := rewrites.simulates edges simulates
    (relays_knowsCounters program target.generation) (fun _ _ => trivial)
    (fun seeded seeding => @knowsCounters_inherited (config.setting target program) _ _ seeding
      accesses) leads original visible found
  have ordinary := (stands.about instr rest rfl).1
  obtain ⟨start, arriving, stands⟩ := stands.split
  obtain ⟨earlier, origin, later, place, kept, count⟩ :=
    exists_source scheduled.transfer scheduled.lowered whole ordinary
  obtain ⟨middle, queue, footprint, next, asked, _, required, knows, met, emitted⟩ :=
    @Simulates.required_at _ _ _ _ _ _ _ _ _ _ _ _ [] simulates scheduled.transfer
      scheduled.lowered _ _ _ place (fun _ _ => trivial) whole count (enters start arriving) stands
  obtain ⟨ready, _, copied⟩ := emitted kept
  obtain ⟨rfl, rfl⟩ := List.cons.inj copied
  rw [leavesOrderedSection_absorbExports] at leaves
  have drained {token : Token} (member : token ∈ flight) (other : token.isLocal = false) :=
    counter_of_leaves required erratum leaves knows met member other
  have plain : ∀ token ∈ flight, ¬(token.operation.event = .vmem ∨
      token.operation.event = .vmemStore) := by
    intro token member event
    have other : token.isLocal = false := by
      unfold Token.isLocal
      rcases event with event | event <;> rw [event] <;> rfl
    obtain ⟨loads, stores, _⟩ := drained member other
    exact (counter_of_vmem (knows.counted token member) event).elim loads stores
  refine ⟨fun token member => not_or.mp (plain token member), fun early => ⟨?_, ?_⟩⟩
  · intro token member
    by_contra vector
    exact plain token member (eq_vmem_of_isVectorMemory early (knows.counted token member)
      (Bool.of_not_eq_false vector))
  · intro scalar token member event
    have other : token.isLocal = false := by
      unfold Token.isLocal
      rw [event]
      rfl
    have counted := knows.counted token member
    rw [event] at counted
    exact (drained member other).2.2 scalar (counter_of_smem early counted)

namespace OverlappedShader

/-- A target whose pixel shaders must finish their accesses before they leave the ordered
section. -/
def target (generation : Generation) : Target :=
  { Target.ofGeneration generation with errata := { overlappedWaves := true } }

/-- A program of one block that loads through scalar memory. -/
def program (instrs : List Instr) : Program where
  blocks := #[{ kind := .flag 0, instrs }]
  scalarLoads := true

/-- An export of a position. -/
def position : Instr := { opcode := .exp, payload := .exportTo 12 0 false false }

/-- A store to a buffer. -/
def store : Instr := { opcode := .bufferStoreDword }

/-- A store to a buffer through scalar memory. -/
def scalarStore : Instr := { opcode := .sBufferStoreDword }

/-- The message that leaves the ordered section before GFX11. -/
def leave : Instr := .immediate .sSendmsg orderedSectionDone

/-- The wait for stores to buffers. -/
def waitForStores : Instr where
  opcode := .sWaitcntVscnt
  operands := [.reg .null (.scalar 1)]
  payload := .scalar 0

/-- The wait for scalar memory. -/
def waitForScalar : Instr := .immediate .sWaitcnt 0xc07f

/-- The code up to the message. -/
def before : List Instr := [position, store, scalarStore, waitForStores, waitForScalar]

/-- The position in flight. -/
def exported : Token :=
  ⟨{ event := .expPos, locks := [⟨126, by decide⟩, ⟨127, by decide⟩] }, .exp⟩

/-- The store in flight. -/
def stored : Token := ⟨{ event := .vmemStore }, .vs⟩

/-- The store through scalar memory in flight. -/
def storedScalar : Token := ⟨{ event := .smem }, .lgkm⟩

/-- The waits for both stores are placed in front of the message. -/
theorem rewrites_drained :
    Rewrites { forceWaits := false, maxVisits := 1 } (target .gfx10p3)
      (program [position, store, scalarStore, leave]) (program (before ++ [leave])) :=
  @rewrites_seeded { forceWaits := false, maxVisits := 1 } (target .gfx10p3) { scalarLoads := true }
    { kind := .flag 0, instrs := _ } (by decide) (by decide) (by decide) ∅ _ rfl
    (Outcome.eq_ok_of_toOption (by decide +kernel))

/-- When the message is sent only the position is in flight. -/
theorem stands_drained : Stands .gfx10p3 [] before [leave] [exported] := by
  constructor
  · refine .issue (by decide) (.issue (by decide) (.issue (by decide) ?_))
    change Runs .gfx10p3 [exported, stored, storedScalar] [waitForStores, waitForScalar] [exported]
    refine .retire (.leave [exported, stored] storedScalar [] (.inl (by decide))) ?_
    refine .retire (.leave [exported] stored [] (.inr (by decide))) ?_
    exact .issue (by decide) (.issue (by decide) (.done _))
  · rintro instr rest ⟨rfl, rfl⟩
    decide

end OverlappedShader

open OverlappedShader in
/-- On GFX10.3 both stores are over when the section is left, and the export is in flight. -/
theorem accesses_over_at_message :
    Stands .gfx10p3 [] before [leave] [exported] ∧
      (∀ token ∈ [exported], token.operation.event.isVectorMemory = false) ∧
      ∀ token ∈ [exported], token.operation.event ≠ .smem := by
  have settled := (ordered_section_over_at_issue (by decide) rewrites_drained rfl 0 .start rfl
    (by decide) rfl rfl (by decide) stands_drained).2 (by decide)
  exact ⟨stands_drained, settled.1, settled.2 rfl⟩

namespace OverlappedShader

/-- A load through a sampler. -/
def sample : Instr where
  opcode := .imageSample
  operands := [.reg ⟨0⟩ (.scalar 8), .reg ⟨8⟩ (.scalar 4)]
  definitions := [⟨⟨256⟩, .vector 1⟩]

/-- A load through scalar memory. -/
def scalarLoad : Instr where
  opcode := .sLoadDword
  definitions := [⟨⟨0⟩, .scalar 1⟩]

/-- The export that leaves the ordered section from GFX11 on. -/
def last : Instr := { opcode := .exp, payload := .exportTo 0 0 false true }

/-- The load through a sampler in flight. -/
def sampled : Token := ⟨{ event := .vmemSample, writes := resolved sample.writes }, .sample⟩

/-- The load through scalar memory in flight. -/
def loaded : Token := ⟨{ event := .smem, writes := resolved scalarLoad.writes }, .km⟩

/-- A program is left as it is, and its last export is issued while the access before it is in
flight. -/
structure LeavesEarly (target : Target) (access : Instr) (token : Token) : Prop where
  edges : WellFormed.checkGraphs (program [access, last]) = .ok ()
  erratum : target.errata.overlappedWaves = true
  leaves : leavesOrderedSection target.generation last = true
  rewrites : Rewrites { forceWaits := false, maxVisits := 1 } target (program [access, last])
    (program [access, last])
  stands : Stands target.generation [] [access] [last] [token]

/-- No wait is placed behind either access. -/
theorem leavesEarly {access : Instr} {token : Token}
    (known : access = sample ∧ token = sampled ∨ access = scalarLoad ∧ token = loaded) :
    LeavesEarly (target .gfx12) access token := by
  rcases known with ⟨rfl, rfl⟩ | ⟨rfl, rfl⟩
  all_goals
    refine ⟨by decide, rfl, by decide, ?_, ?_, ?_⟩
    · exact @rewrites_seeded { forceWaits := false, maxVisits := 1 } (target .gfx12)
        { scalarLoads := true } { kind := .flag 0, instrs := _ } (by decide) (by decide) (by decide)
        ∅ _ rfl (Outcome.eq_ok_of_toOption (by decide +kernel))
    · exact .issue (by decide) (.done _)
    · rintro instr rest ⟨rfl, rfl⟩
      decide

end OverlappedShader

open OverlappedShader in
/-- On GFX12 the ordered section is left while a load through a sampler is in flight, and while a
load through scalar memory is. -/
theorem ordered_section_left_early_on_gfx12 :
    (LeavesEarly (target .gfx12) sample sampled ∧
      sampled.operation.event.isVectorMemory = true) ∧
    (LeavesEarly (target .gfx12) scalarLoad loaded ∧
      (program [scalarLoad, last]).scalarLoads = true ∧ loaded.operation.event = .smem) :=
  ⟨⟨leavesEarly (.inl ⟨rfl, rfl⟩), rfl⟩, leavesEarly (.inr ⟨rfl, rfl⟩), rfl, rfl⟩

end InsertWaits

end WaveHazard
