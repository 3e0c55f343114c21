import WaveHazard.Proofs.Completion
import WaveHazard.Proofs.MemoryOrder

/-! # Accesses to local memory that an earlier shader part left in flight

A program may start while any number of accesses to local memory of an earlier shader part are in
flight. The fences have a record of them from the start, but the counter of local memory is not
known to be in flight, and waits on counters with nothing in flight are dropped. So a release or a
barrier completes these accesses only if the program itself has put an operation on the counter
before, and otherwise they can outlast it.

Accesses to local memory leave in order. The ones in flight are therefore the latest of those that
were inherited and issued, and the inherited ones are over when all of them were issued by the
program.
-/

namespace WaveHazard

open Machine Wait Hazard

namespace Hazard

variable {generation : Generation}

/-- An access to local memory of an earlier shader part. -/
def inheritedAccess : Operation where
  event := .lds
  sync := .ofStorage .shared

/-- What an earlier shader part may have left in flight: a number of accesses to local memory, and
the loads of arguments. -/
def inheritedFlight (generation : Generation) (program : Program) (accesses : Nat) : Flight :=
  let arguments : List Operation := program.pendingArguments.map fun definition =>
    { event := .vmem, writes := resolved definition.slots }
  (List.replicate accesses inheritedAccess ++ arguments).flatMap (Operation.tokens generation)

/-- The place of local memory among the kinds of memory. -/
def sharedIndex : Fin storageCount := ⟨3, by decide⟩

/-- Whether a token is of an access to local memory. -/
def Token.isLocal (token : Token) : Bool := token.operation.event = .lds

/-- Every access to local memory in flight is among the latest of the given ones. -/
def Owned (issued flight : Flight) : Prop :=
  flight.filter Token.isLocal <:+ issued.filter Token.isLocal

/-- Accesses to local memory leave in order. -/
theorem isUnordered_lds (generation : Generation) :
    generation.isUnordered (.single .lds) = false := by
  cases generation <;> decide

/-- Only one counter counts accesses to local memory. -/
theorem counter_of_lds {counter : Counter}
    (counted : (generation.counted counter).holds .lds = true) : counter = .lgkm := by
  revert counted
  cases generation <;> cases counter <;> decide

/-- Accesses to local memory in flight are on the counter for them. -/
theorem Counted.counter_of_isLocal {flight : Flight} (counted : Counted generation flight)
    {token : Token} (member : token ∈ flight) (isLocal : token.isLocal = true) :
    token.counter = .lgkm := by
  have event : token.operation.event = .lds := of_decide_eq_true isLocal
  have holds := counted token member
  rw [event] at holds
  exact counter_of_lds holds

/-- The oldest access to local memory leaves first. -/
theorem Owned.retires {issued flight next : Flight} (owned : Owned issued flight)
    (counted : Counted generation flight) (retires : Retires generation flight next) :
    Owned issued next := by
  refine List.IsSuffix.trans ?_ owned
  cases retires with
  | leave older token younger free =>
      cases isLocal : token.isLocal with
      | false => simp [List.filter_append, isLocal]
      | true =>
          -- Accesses to local memory share a queue, so no older one can be left behind.
          have event : token.operation.event = .lds := of_decide_eq_true isLocal
          have first : older.filter Token.isLocal = [] := by
            rw [List.filter_eq_nil_iff]
            intro other member also
            rcases free with unordered | last
            · unfold Token.isUnordered at unordered
              rw [event, isUnordered_lds] at unordered
              cases unordered
            · have here := counted.counter_of_isLocal
                (List.mem_append_right _ List.mem_cons_self) isLocal
              have there := counted.counter_of_isLocal (List.mem_append_left _ member) also
              have same : other.operation.event = .lds := of_decide_eq_true also
              have shares : other.sharesQueue token = true := by
                unfold Token.sharesQueue
                rw [here, there, event, same]
                rfl
              rw [last other member] at shares
              cases shares
          rw [List.filter_append, List.filter_append, first, List.filter_cons_of_pos isLocal]
          exact List.suffix_cons _ _

/-- What is in flight stays among the latest accesses when operations leave. -/
theorem Owned.drains {issued flight next : Flight} (owned : Owned issued flight)
    (counted : Counted generation flight) (drains : Drains generation flight next) :
    Owned issued next := by
  induction drains with
  | refl => exact owned
  | tail earlier retires ih => exact ih.retires (counted.drains earlier) retires

/-- What is issued is among the latest accesses from then on. -/
theorem Owned.append {issued flight : Flight} (owned : Owned issued flight) (more : Flight) :
    Owned (issued ++ more) (flight ++ more) := by
  unfold Owned at owned ⊢
  obtain ⟨gone, same⟩ := owned
  exact ⟨gone, by rw [List.filter_append, List.filter_append, ← same, List.append_assoc]⟩

/-- Nothing of local memory is in flight once its counter has drained. -/
theorem owned_of_drained {flight : Flight} (counted : Counted generation flight)
    (drained : outstanding flight .lgkm = 0) (issued : Flight) : Owned issued flight := by
  have nothing : flight.filter Token.isLocal = [] := by
    rw [List.filter_eq_nil_iff]
    intro token member isLocal
    have here := counted.counter_of_isLocal member isLocal
    exact List.countP_eq_zero.mp drained token member (decide_eq_true here)
  unfold Owned
  rw [nothing]
  exact List.nil_suffix

/-- What reaches further back than the second list has something of the first one. -/
theorem exists_mem_of_suffix_append {α : Type} {items first second : List α}
    (suffix : items <:+ first ++ second) (longer : ¬items <:+ second) :
    ∃ item ∈ items, item ∈ first := by
  obtain ⟨gone, same⟩ := suffix
  rcases List.append_eq_append_iff.mp same with ⟨between, rfl, rfl⟩ | ⟨between, rfl, rfl⟩
  · cases between with
    | nil => exact absurd (List.suffix_refl _) longer
    | cons item rest => exact ⟨item, by simp, by simp⟩
  · exact absurd (List.suffix_append _ _) longer

/-- What is known of a program that has inherited accesses to local memory. -/
structure Inherits (generation : Generation) (start issued : Flight) (state : State)
    (flight : Flight) : Prop where
  /-- The fences have a record of all accesses. -/
  recorded : Tallied generation (Recorded generation state) flight
  /-- Accesses to local memory that are in flight are the latest of all. -/
  ordered : Owned (start ++ issued) flight
  /-- Once something has been issued on their counter, it is known to be in flight as long as
  inherited accesses are. -/
  known : (∃ token ∈ issued, token.counter = .lgkm) → ¬Owned issued flight →
    state.inFlight.holds .lgkm = true

/-- What is known of inherited accesses stays true from instruction to instruction. -/
theorem simulates_inherits (setting : Setting) (start : Flight) :
    Simulates setting (fun _ => True) (Inherits setting.generation start) where
  counted inherits := (upheld_recorded setting).counted_of_tallied inherits.recorded
  drains := by
    intro issued state flight next inherits drains
    have counted := (upheld_recorded setting).counted_of_tallied inherits.recorded
    refine ⟨inherits.recorded.drains drains, inherits.ordered.drains counted drains, ?_⟩
    intro busy foreign
    exact inherits.known busy fun owned => foreign (owned.drains counted drains)
  require := by
    intro issued flight state after queue passed instr footprint sync inherits required met
    have counted := (upheld_recorded setting).counted_of_tallied inherits.recorded
    refine ⟨(upheld_recorded setting).require inherits.recorded required met, inherits.ordered, ?_⟩
    intro busy foreign
    -- The counter stops being in flight only where it drains, and then nothing inherited is left.
    refine holds_inFlight_require (inherits.known busy foreign) required fun drains => ?_
    exact foreign (owned_of_drained counted (Nat.le_zero.mp (met .lgkm 0 drains)) issued)
  issueAll := by
    intro issued flight state after instr inherits issue _
    refine ⟨(upheld_recorded setting).issueAll inherits.recorded issue False.elim, ?_, ?_⟩
    · rw [← List.append_assoc]
      exact inherits.ordered.append _
    · rintro ⟨token, member, here⟩ foreign
      rcases List.mem_append.mp member with before | now
      · refine holds_inFlight_issueAll (inherits.known ⟨token, before, here⟩ fun owned => ?_) issue
        exact foreign (owned.append _)
      · rw [← here]
        exact holds_inFlight_of_launch issue now

/-- What a predecessor knows of inherited accesses is known to a state that has absorbed it. -/
theorem Inherits.absorbed {start issued flight : Flight} {state left : State} {logical : Bool}
    (inherits : Inherits generation start issued left flight)
    (absorbs : state.Absorbs left logical) : Inherits generation start issued state flight where
  recorded := inherits.recorded.mono fun _ _ _ recorded => recorded.absorbed absorbs
  ordered := inherits.ordered
  known busy foreign := holds_inFlight_absorbed (inherits.known busy foreign) absorbs

/-- The fences of a program that has inherited accesses have a record of them, however many. -/
theorem recorded_inherited {setting : Setting} {program : Program}
    (pending : program.pendingLocalAccess = true) {seeded : State}
    (seeding : State.atEntry setting.generation ∅ program = .ok seeded) (accesses : Nat) :
    Tallied setting.generation (Recorded setting.generation seeded)
      (inheritedFlight setting.generation program accesses) := by
  unfold State.atEntry at seeding
  rw [pending, if_pos rfl] at seeding
  unfold inheritedFlight
  rw [List.flatMap_append]
  refine (upheld_recorded setting).arguments ?_ seeding
  intro older token younger split
  have member : token ∈ (List.replicate accesses inheritedAccess).flatMap
      (Operation.tokens setting.generation) := by
    rw [split]
    exact List.mem_append_right _ List.mem_cons_self
  obtain ⟨operation, listed, launched⟩ := List.mem_flatMap.mp member
  obtain ⟨rfl, counted⟩ := mem_tokens.mp launched
  have same := List.eq_of_mem_replicate listed
  refine ⟨counted, fun index accessed => ?_⟩
  have recorded : FencesAt ((∅ : State).apply setting.generation
      (.count .lds (.ofStorage .shared))) index token 0 :=
    fencesAt_of_operation? (by rw [same]; rfl) counted accessed
  have seen := recorded.of_fences_eq (fences_count .lds (.ofStorage .shared)).symm
  exact seen.mono (Entails.refl _) seen.named (Nat.zero_le _)

/-- When a program starts, nothing has been issued and everything in flight is inherited. -/
theorem inherits_atEntry {setting : Setting} {program : Program}
    (pending : program.pendingLocalAccess = true) {seeded : State}
    (seeding : State.atEntry setting.generation ∅ program = .ok seeded) (accesses : Nat) :
    Inherits setting.generation (inheritedFlight setting.generation program accesses) [] seeded
      (inheritedFlight setting.generation program accesses) where
  recorded := recorded_inherited pending seeding accesses
  ordered := by
    rw [List.append_nil]
    exact List.suffix_refl _
  known := nofun

/-- The accesses to local memory that a program has inherited are all alike. -/
theorem operation_of_inherited {program : Program} {accesses : Nat} {token : Token}
    (member : token ∈ inheritedFlight generation program accesses)
    (isLocal : token.isLocal = true) : token.operation = inheritedAccess := by
  obtain ⟨operation, listed, launched⟩ := List.mem_flatMap.mp member
  obtain ⟨rfl, _⟩ := mem_tokens.mp launched
  rcases List.mem_append.mp listed with inherited | argument
  · exact List.eq_of_mem_replicate inherited
  · obtain ⟨definition, _, same⟩ := List.mem_map.mp argument
    unfold Token.isLocal at isLocal
    rw [← same] at isLocal
    cases isLocal

/-- Where the waits of a release or a barrier for local memory are over, the inherited accesses are
over, if their counter is known to be in flight. -/
theorem owned_of_require {setting : Setting} {state after : State} {queue asked : Queue}
    {fence : Instr} {footprint : Footprint}
    (required : state.require setting queue fence footprint fence.sync = (after, asked))
    (orders : fence.sync.semantics.intersects (if fence.opcode = .pBarrier then
      Semantics.acquireRelease else Semantics.release) = true)
    (shares : setting.target.waveSize < setting.target.workgroupSize)
    (wide : ¬ fence.sync.scope ≤ .subgroup)
    (named : fence.sync.storage.has sharedIndex = true) {program : Program} {accesses : Nat}
    {issued flight : Flight}
    (inherits : Inherits setting.generation
      (inheritedFlight setting.generation program accesses) issued state flight)
    (busy : ∃ token ∈ issued, token.counter = .lgkm) (met : Met asked.wait flight) :
    Owned issued flight := by
  by_contra foreign
  -- Some inherited access is in flight, its counter is known to be, and the fence asks for it.
  have held := inherits.known busy foreign
  have reaches := inherits.ordered
  unfold Owned at reaches foreign
  rw [List.filter_append] at reaches
  obtain ⟨token, member, inherited⟩ := exists_mem_of_suffix_append reaches foreign
  obtain ⟨member, isLocal⟩ := List.mem_filter.mp member
  have counted := (upheld_recorded setting).counted_of_tallied inherits.recorded
  have here := counted.counter_of_isLocal member isLocal
  have access := operation_of_inherited (List.mem_of_mem_filter inherited) isLocal
  have beyond : ¬ fence.sync.scope ≤ State.waveScope setting.target := by
    unfold State.waveScope
    rw [if_neg (Nat.not_le.mpr shares)]
    exact wide
  have exposed : token.operation.staysOrdered setting.target fence.sync.scope = false := by
    rw [access]
    simp [Operation.staysOrdered, inheritedAccess, Nat.not_le.mpr shares]
  obtain ⟨older, younger, rfl⟩ := List.append_of_mem member
  have recorded := (inherits.recorded older token younger rfl).fences sharedIndex
    (by rw [access]; rfl)
  have visible := Events.isEmpty_eq_false (holds_visibleEvents beyond recorded.named exposed)
  have needed := ((of_require required).1.trans (entails_combine_right _ _)).at token.counter
  rw [← here] at held
  exact recorded.absurd_of_met rfl (needed.trans (State.needs_entailsAt_fence held orders beyond
    named visible footprint queue.delay)) met

end Hazard

namespace InsertWaits

/-- A program that starts while accesses to local memory of an earlier shader part are in flight
knows of them along every route over the edges of either graph. -/
theorem relays_inherits (program : Program) (generation : Generation) (start : Flight) :
    Relays program program.EitherEdge (Inherits generation start) where
  seed absorbs inherits := inherits.absorbed (absorbs true)
  edge follows absorbs inherits := by
    obtain ⟨graph, edge⟩ := follows
    exact inherits.absorbed (absorbs graph edge)

/-- Along every route over the edges of either graph and for every order in which operations leave,
however many accesses to local memory were in flight when the program started, none of these is in
flight where an instruction has synchronized local memory beyond a wave, if the program has issued
anything on their counter before. A barrier that acquires or releases has done so where the next
ordinary instruction is issued or the block ends, and a release where it is issued itself. -/
theorem inherited_accesses_over_at_fences {config : Config} {target : Target}
    {program rewritten : Program} (edges : WellFormed.checkGraphs program = .ok ())
    (rewrites : Rewrites config target program rewritten)
    (shares : target.waveSize < target.workgroupSize)
    (pending : program.pendingLocalAccess = true) (accesses : Nat) {route : List Nat} {here : Nat}
    (leads : program.Leads program.EitherEdge route here) {source block : Block}
    (original : program.blocks[here]? = some source) (visible : source.isExempt = false)
    (found : rewritten.blocks[here]? = some block) {before after : List Instr} {fence : Instr}
    (place : source.instrs = before ++ fence :: after)
    (named : fence.sync.storage.has sharedIndex = true) (wide : ¬ fence.sync.scope ≤ .subgroup)
    {passed ahead : List Instr} (whole : block.instrs = passed ++ ahead)
    (count : passed.countP (isOrdinary target.generation) =
      before.countP fun instr => !isAbsorbed target.generation instr) {flight : Flight}
    (stands : Stands target.generation (inheritedFlight target.generation program accesses)
      (rewritten.codeAlong route ++ passed) ahead flight)
    (busy : ∃ token ∈ launched target.generation (rewritten.codeAlong route ++ passed),
      token.counter = .lgkm) :
    (fence.opcode = .pBarrier → fence.sync.semantics.intersects Semantics.acquireRelease = true →
      Owned (launched target.generation (rewritten.codeAlong route ++ passed)) flight) ∧
    (isAbsorbed target.generation fence = false →
      fence.sync.semantics.intersects Semantics.release = true →
      (∃ ready rest, ahead = (absorbExports ready fence).instr :: rest) ∧
        Owned (launched target.generation (rewritten.codeAlong route ++ passed)) flight) := by
  have simulates := simulates_inherits (config.setting target program)
    (inheritedFlight target.generation program accesses)
  obtain ⟨state, left, schedule, scheduled, enters⟩ := rewrites.simulates edges simulates
    (relays_inherits program target.generation _) (fun _ _ => trivial)
    (fun seeded seeding => @inherits_atEntry (config.setting target program) program pending seeded
      seeding accesses) leads original visible found
  obtain ⟨start, arriving, stands⟩ := stands.split
  obtain ⟨middle, queue, footprint, next, asked, _, required, inherits, met, emitted⟩ :=
    simulates.required_at scheduled.transfer scheduled.lowered place (fun _ _ => trivial) whole
      count (enters start arriving) stands
  rw [launched_append] at busy ⊢
  refine ⟨?_, ?_⟩
  · intro barrier orders
    exact owned_of_require required (by rw [if_pos barrier]; exact orders) shares wide named
      inherits busy met
  · intro kept orders
    have other : fence.opcode ≠ .pBarrier := by
      intro barrier
      rw [isAbsorbed_of_barrier barrier] at kept
      cases kept
    exact ⟨emitted kept, owned_of_require required (by rw [if_neg other]; exact orders) shares wide
      named inherits busy met⟩

namespace InheritedThenBarrier

/-- Workgroups of more than one wave. -/
def target : Target := { Target.ofGeneration .gfx10p3 with workgroupSize := 256 }

/-- A barrier for the local memory of the workgroup. -/
def barrier : Instr where
  opcode := .pBarrier
  payload := .barrier { storage := .shared, semantics := .acquireRelease, scope := .workgroup }

/-- An instruction that waits for nothing. -/
def pause : Instr := .immediate .sNop 0

/-- A store to local memory that nobody else sees. -/
def localStore : Instr := { opcode := .dsWriteB32, payload := .dataShare {} false 0 0 }

/-- A program of one block that has inherited accesses to local memory. -/
def program (instrs : List Instr) : Program where
  blocks := #[{ kind := .flag 0, instrs }]
  pendingLocalAccess := true

/-- A wait until at most one access to local memory is outstanding. -/
def waitForAllButOne : Instr := .immediate .sWaitcnt 0xc17f

/-- The store in flight. -/
def stored : Token := ⟨{ event := .lds }, .lgkm⟩

/-- An inherited access in flight. -/
def inherited : Token := ⟨inheritedAccess, .lgkm⟩

/-- The barrier becomes a wait that leaves the own store in flight. -/
theorem rewrites_stored : Rewrites { forceWaits := false, maxVisits := 1 } target
    (program [localStore, barrier, pause]) (program [localStore, waitForAllButOne, pause]) :=
  @rewrites_seeded { forceWaits := false, maxVisits := 1 } target
    { blocks := #[], pendingLocalAccess := true }
    { kind := .flag 0, instrs := [localStore, barrier, pause] }
    (by decide) (by decide) (by decide) _ [localStore, waitForAllButOne, pause] rfl
    (Outcome.eq_ok_of_toOption (by decide +kernel))

/-- Behind the wait only the own store is in flight. -/
theorem stands_stored :
    Stands .gfx10p3 (inheritedFlight .gfx10p3 (program [localStore, barrier, pause]) 2)
      [localStore, waitForAllButOne] [pause] [stored] := by
  constructor
  · change Runs .gfx10p3 [inherited, inherited] [localStore, waitForAllButOne] [stored]
    refine .issue (by decide) ?_
    change Runs .gfx10p3 [inherited, inherited, stored] [waitForAllButOne] [stored]
    refine .retire (.leave [] inherited [inherited, stored] (.inr (by decide))) ?_
    refine .retire (.leave [] inherited [stored] (.inr (by decide))) ?_
    exact .issue (by decide) (.done _)
  · rintro instr rest ⟨rfl, rfl⟩
    decide

end InheritedThenBarrier

open InheritedThenBarrier in
/-- Behind the barrier the store of the program is in flight, but no inherited access is. -/
theorem inherited_accesses_over_behind_store :
    Stands .gfx10p3 (inheritedFlight .gfx10p3 (program [localStore, barrier, pause]) 2)
        [localStore, waitForAllButOne] [pause] [stored] ∧
      Owned (launched .gfx10p3 [localStore, waitForAllButOne]) [stored] := by
  have place : [localStore, barrier, pause] = [localStore] ++ barrier :: [pause] := rfl
  refine ⟨stands_stored, ?_⟩
  exact (inherited_accesses_over_at_fences (by decide) rewrites_stored (by decide) rfl 2 .start rfl
    (by decide) rfl place (by decide) (by decide) rfl (by decide) stands_stored
    ⟨stored, by decide, rfl⟩).1 rfl (by decide)

namespace InheritedThenBarrier

/-- The barrier becomes nothing at all. -/
theorem rewrites_empty : Rewrites { forceWaits := false, maxVisits := 1 } target
    (program [barrier, pause]) (program [pause]) :=
  @rewrites_seeded { forceWaits := false, maxVisits := 1 } target
    { blocks := #[], pendingLocalAccess := true }
    { kind := .flag 0, instrs := [barrier, pause] }
    (by decide) (by decide) (by decide) _ [pause] rfl
    (Outcome.eq_ok_of_toOption (by decide +kernel))

end InheritedThenBarrier

open InheritedThenBarrier in
/-- A program that issues nothing in front of its barrier does not wait at it: the instruction
behind the barrier is issued while an inherited access is in flight. -/
theorem inherited_access_outlasts_barrier :
    WellFormed.checkGraphs (program [barrier, pause]) = .ok () ∧
      target.waveSize < target.workgroupSize ∧
      barrier.sync.storage.has sharedIndex = true ∧ ¬ barrier.sync.scope ≤ .subgroup ∧
      barrier.sync.semantics.intersects Semantics.acquireRelease = true ∧
      Rewrites { forceWaits := false, maxVisits := 1 } target (program [barrier, pause])
        (program [pause]) ∧
      Stands .gfx10p3 (inheritedFlight .gfx10p3 (program [barrier, pause]) 1) [] [pause]
        [inherited] ∧
      ¬ Owned (launched .gfx10p3 []) [inherited] := by
  refine ⟨by decide, by decide, by decide, by decide, by decide, rewrites_empty, ⟨?_, ?_⟩, ?_⟩
  · exact .done _
  · rintro instr rest ⟨rfl, rfl⟩
    decide
  · intro owned
    exact absurd (List.IsSuffix.length_le owned) (by decide)

end InsertWaits

end WaveHazard
