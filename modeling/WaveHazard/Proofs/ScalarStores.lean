import WaveHazard.Proofs.InheritedAccesses

/-! # Scalar stores

Operations of scalar memory complete in any order, so a store is only known to be over when its
counter has drained. The counter that is drained in front of a write-back of the scalar cache, and
in front of a load that must not overtake a store, is the one of local memory. Before GFX12 this is
the counter of scalar memory as well. GFX12 has moved scalar memory to a counter of its own: there
the wait is for nothing, and write-backs and loads overtake the stores in front of them.

A flag of the analysis says that a store is pending. It is raised by every store that must not be
reordered, passes along the edges of either graph, and is lowered only where the counter has
drained.
-/

namespace WaveHazard

open Machine Wait Hazard

namespace Hazard

variable {generation : Generation} {setting : Setting} {state after : State}

/-- Before GFX12 scalar memory is on the counter of local memory. -/
theorem counter_of_smem (early : generation < .gfx12) {counter : Counter}
    (counted : (generation.counted counter).holds .smem = true) : counter = .lgkm := by
  revert early counted
  cases generation <;> cases counter <;> decide

section Flag

/-- While arithmetic passes, the flag stays. -/
theorem State.scalarStore_ageArithmetic (state : State) (isValu isTrans forget : Bool)
    (cycles : Int) :
    (state.ageArithmetic isValu isTrans forget cycles).scalarStore = state.scalarStore := by
  unfold ageArithmetic
  rfl

/-- Waits alone do not lower the flag. -/
theorem State.scalarStore_pass (state : State) (queue : Queue) :
    (state.pass setting queue).scalarStore = state.scalarStore := by
  unfold pass
  dsimp only
  split
  · rw [scalarStore_ageArithmetic]
  · rfl

/-- The flag is raised behind effects if it was before or one of them raises it. -/
theorem scalarStore_applyAll {effects : List Effect}
    (raised : state.scalarStore = true ∨ Effect.scalarStore ∈ effects) :
    (state.applyAll generation effects).scalarStore = true := by
  induction effects generalizing state with
  | nil => exact raised.resolve_right List.not_mem_nil
  | cons effect rest ih =>
      refine ih ?_
      rcases raised with held | member
      · left
        cases effect with
        | count event sync =>
            change (state.count generation event sync).scalarStore = true
            unfold State.count
            dsimp only
            split <;> exact held
        | flatLoad sync => exact held
        | track slots entry => exact held
        | scalarStore => rfl
      · rcases List.mem_cons.mp member with rfl | later
        · exact .inl rfl
        · exact .inr later

/-- The flag is raised behind an instruction if it was before or an effect of it raises it. -/
theorem scalarStore_issueAll {instr : Instr} (issued : issueAll setting state instr = .ok after)
    {effects : List Effect} (read : Effect.ofInstr setting.generation instr = .ok effects)
    (raised : state.scalarStore = true ∨ Effect.scalarStore ∈ effects) :
    after.scalarStore = true := by
  obtain ⟨found, middle, same, rfl, arithmetic⟩ := issueAll_eq_ok issued
  cases read.symm.trans same
  refine scalarStore_applyAll (raised.imp_left fun held => ?_)
  rcases arithmetic with rfl | ⟨quiet, isValu, isTrans, forget, cycles, _, rfl⟩
  · exact held
  · rw [State.scalarStore_ageArithmetic]
    exact scalarStore_applyAll (.inl held)

/-- The flag is lowered where the counter drains. -/
theorem scalarStore_require {queue passed : Queue} {instr : Instr} {footprint : Footprint}
    {sync : Sync}
    (required : state.require setting queue instr footprint sync = (after, passed)) :
    after.scalarStore = (state.scalarStore && !(passed.wait.lgkm == some 0)) := by
  unfold State.require at required
  dsimp only at required
  split at required
  · cases required
    rfl
  · cases required
    dsimp only
    rw [State.scalarStore_pass]

end Flag

/-- No export is counted as scalar memory. -/
theorem exportEvent_ne_smem (target : Nat) : Effect.exportEvent target ≠ .smem := by
  unfold Effect.exportEvent
  split
  · decide
  · split <;> decide

/-- No load of vector registers is counted as scalar memory. -/
theorem loadEvent_ne_smem (instr : Instr) (kind : LoadKind) :
    loadEvent generation instr kind ≠ .smem := by
  unfold loadEvent
  split
  · decide
  · split
    · split <;> decide
    · decide

/-- Operations of scalar memory come from its instructions. -/
theorem of_mem_operationsOf_smem {instr : Instr} {operation : Operation}
    (member : operation ∈ operationsOf generation instr) (event : operation.event = .smem) :
    instr.isScalarMemory = true ∧ operation.sync = instr.sync := by
  unfold operationsOf at member
  dsimp only at member
  split at member
  case h_3 encoding =>
    cases List.mem_singleton.mp member
    exact ⟨beq_iff_eq.mpr encoding, rfl⟩
  case h_1 =>
    split at member
    · cases List.mem_singleton.mp member
      exact absurd event (exportEvent_ne_smem _)
    · cases member
  case h_6 | h_7 | h_8 | h_9 | h_10 =>
    unfold vectorMemoryOperations at member
    dsimp only at member
    split at member
    · rcases List.mem_pair.mp member with rfl | rfl
      · exact absurd event (loadEvent_ne_smem _ _)
      · cases event
    · cases List.mem_singleton.mp member
      exact absurd event (loadEvent_ne_smem _ _)
  case h_4 =>
    split at member
    · rcases List.mem_pair.mp member with rfl | rfl <;> cases event
    · cases List.mem_singleton.mp member
      cases event
  case h_2 | h_5 =>
    cases List.mem_singleton.mp member
    cases event
  case h_11 | h_12 =>
    split at member
    · cases List.mem_singleton.mp member
      cases event
    · cases member
  case h_13 => cases member

/-- A store that must not be reordered raises the flag. -/
theorem scalarStore_mem_of_ofInstr {instr : Instr} {effects : List Effect}
    (read : Effect.ofInstr generation instr = .ok effects) (scalar : instr.isScalarMemory = true)
    (stores : instr.definitions = []) (recent : .gfx10 ≤ generation)
    (fixed : instr.sync.canReorder = false) : Effect.scalarStore ∈ effects := by
  unfold Effect.ofInstr at read
  rw [beq_iff_eq.mp scalar] at read
  obtain ⟨result, _, done⟩ := Outcome.bind_eq_ok.mp read
  cases done
  rw [if_pos ⟨by rw [stores]; rfl, recent, by rw [fixed]; rfl⟩]
  exact List.mem_append_right _ (List.mem_singleton_self _)

/-- Whether an operation looks like one that a scalar load of a program sets in motion. Operations
are told apart by what is known of them: see `not_isScalarLoad_of_store`. -/
def IsScalarLoad (generation : Generation) (program : Program) (token : Token) : Prop :=
  ∃ load ∈ program.instrs, load.isScalarMemory = true ∧ load.definitions ≠ [] ∧
    token ∈ launch generation load

instance (generation : Generation) (program : Program) (token : Token) :
    Decidable (IsScalarLoad generation program token) :=
  inferInstanceAs (Decidable (∃ load ∈ program.instrs, _))

/-- An instruction of scalar memory sets one operation in motion, which writes what the instruction
defines. -/
theorem operation_of_mem_launch {instr : Instr} (scalar : instr.isScalarMemory = true)
    {token : Token} (launched : token ∈ launch generation instr) :
    token.operation = { event := .smem, sync := instr.sync, writes := resolved instr.writes } := by
  obtain ⟨operation, launching, started⟩ := List.mem_flatMap.mp launched
  obtain ⟨rfl, _⟩ := mem_tokens.mp started
  unfold operationsOf at launching
  rw [beq_iff_eq.mp scalar] at launching
  exact List.mem_singleton.mp launching

/-- The operation of a store is not one of a load as long as no load defines a register without
slots: a load leaves its registers undefined until it completes, and a store has none. -/
theorem not_isScalarLoad_of_store {program : Program}
    (slots : ∀ load ∈ program.instrs, load.isScalarMemory = true → load.definitions ≠ [] →
      resolved load.writes ≠ [])
    {store : Instr} (scalar : store.isScalarMemory = true) (stores : store.definitions = [])
    {token : Token} (launched : token ∈ launch generation store) :
    ¬IsScalarLoad generation program token := by
  rintro ⟨load, listed, reads, defines, started⟩
  have same : resolved load.writes = resolved store.writes :=
    congrArg Operation.writes
      ((operation_of_mem_launch reads started).symm.trans (operation_of_mem_launch scalar launched))
  refine slots load listed reads defines (same.trans ?_)
  rw [Instr.writes, stores]
  rfl

/-- Whether an operation is of scalar memory and must not be reordered. -/
def Token.IsScalarInPlace (token : Token) : Prop :=
  token.operation.event = .smem ∧ token.operation.sync.canReorder = false

instance (token : Token) : Decidable token.IsScalarInPlace := inferInstanceAs (Decidable (_ ∧ _))

/-- What is known of the operations of scalar memory that are in flight. -/
structure KnowsScalar (generation : Generation) (program : Program) (state : State)
    (flight : Flight) : Prop where
  counted : Counted generation flight
  /-- Their counters are known to be in flight. -/
  busy : ∀ token ∈ flight, token.operation.event = .smem →
    state.inFlight.holds token.counter = true
  /-- The flag is raised while a store that must not be reordered is in flight. -/
  pending : .gfx10 ≤ generation → ∀ token ∈ flight, token.IsScalarInPlace →
    ¬IsScalarLoad generation program token → state.scalarStore = true

/-- What is known of scalar memory stays true from instruction to instruction. -/
theorem simulates_knowsScalar (early : setting.generation < .gfx12) (program : Program) :
    Simulates setting (fun instr => instr ∈ program.instrs)
      fun _ => KnowsScalar setting.generation program where
  counted knows := knows.counted
  drains := by
    intro _ state flight next knows drains
    exact ⟨knows.counted.drains drains,
      fun token member => knows.busy token (mem_of_drains drains member),
      fun recent token member => knows.pending recent token (mem_of_drains drains member)⟩
  require := by
    intro _ flight state after queue passed instr footprint sync knows required met
    refine ⟨knows.counted, ?_, ?_⟩
    · intro token member event
      exact holds_inFlight_require (knows.busy token member event) required
        (met.get_ne_zero member)
    · intro recent token member inPlace store
      -- The flag is lowered only where the counter of local memory drains, and the store is on it.
      have counted := knows.counted token member
      rw [inPlace.1] at counted
      have remains := met.get_ne_zero member
      rw [counter_of_smem early counted] at remains
      have keeps : (passed.wait.lgkm == some 0) = false := beq_false_of_ne remains
      rw [scalarStore_require required, knows.pending recent token member inPlace store, keeps]
      rfl
  issueAll := by
    intro _ flight state after instr knows issued listed
    refine ⟨knows.counted.issue instr, ?_, ?_⟩
    · intro token member event
      rcases List.mem_append.mp member with older | newer
      · exact holds_inFlight_issueAll (knows.busy token older event) issued
      · exact holds_inFlight_of_launch issued newer
    · intro recent token member inPlace store
      obtain ⟨effects, _, read, _, _⟩ := issueAll_eq_ok issued
      refine scalarStore_issueAll issued read ?_
      rcases List.mem_append.mp member with older | newer
      · exact .inl (knows.pending recent token older inPlace store)
      · obtain ⟨_, launching, launched⟩ := List.mem_flatMap.mp newer
        obtain ⟨rfl, _⟩ := mem_tokens.mp launched
        obtain ⟨scalar, same⟩ := of_mem_operationsOf_smem launching inPlace.1
        have inside : instr ∈ program.instrs := listed (by
          unfold isAsynchronous
          rw [Bool.not_eq_true', List.isEmpty_eq_false_iff_exists_mem]
          exact ⟨_, launching⟩)
        -- What defines a register is a load, so this one is a store.
        have stores : instr.definitions = [] := by
          by_contra defines
          exact store ⟨instr, inside, scalar, defines, newer⟩
        exact .inr (scalarStore_mem_of_ofInstr read scalar stores recent (same ▸ inPlace.2))

/-- What a predecessor knows of scalar memory is known to a state that has absorbed it. -/
theorem KnowsScalar.absorbed {program : Program} {flight : Flight} {state left : State}
    {logical : Bool} (knows : KnowsScalar generation program left flight)
    (absorbs : state.Absorbs left logical) : KnowsScalar generation program state flight where
  counted := knows.counted
  busy token member event := holds_inFlight_absorbed (knows.busy token member event) absorbs
  pending recent token member inPlace store := by
    rw [← (State.join_eq_iff.mp absorbs).2.2.2.1, knows.pending recent token member inPlace store,
      Bool.or_true]

/-- Nothing of scalar memory is in flight when a program starts. -/
theorem knowsScalar_inherited (program : Program) (accesses : Nat) (state : State) :
    KnowsScalar generation program state (inheritedFlight generation program accesses) := by
  have other : ∀ token ∈ inheritedFlight generation program accesses,
      (generation.counted token.counter).holds token.operation.event = true ∧
        token.operation.event ≠ .smem := by
    intro token member
    obtain ⟨operation, listed, launched⟩ := List.mem_flatMap.mp member
    obtain ⟨rfl, counted⟩ := mem_tokens.mp launched
    refine ⟨counted, ?_⟩
    rcases List.mem_append.mp listed with inherited | argument
    · rw [List.eq_of_mem_replicate inherited]
      decide
    · obtain ⟨definition, _, same⟩ := List.mem_map.mp argument
      rw [← same]
      exact Event.noConfusion
  exact ⟨fun token member => (other token member).1,
    fun token member event => absurd event (other token member).2,
    fun _ token member inPlace => absurd inPlace.1 (other token member).2⟩

/-- A load that must not be reordered reads stale data while the flag is raised, where the hardware
has that defect. -/
theorem readsStaleScalar_of_raised (erratum : setting.target.errata.scalarStoreLoad = true)
    (recent : .gfx10 ≤ setting.generation) {instr : Instr} (scalar : instr.isScalarMemory = true)
    (defines : instr.definitions ≠ []) (fixed : instr.sync.canReorder = false)
    (raised : state.scalarStore = true) : state.readsStaleScalar setting instr = true := by
  simp [State.readsStaleScalar, erratum, recent, scalar, raised, defines, fixed]

/-- Where an instruction needs the counter of scalar memory to drain, nothing of scalar memory is in
flight once its waits are over. -/
theorem no_scalar_of_require (early : setting.generation < .gfx12) {queue asked : Queue}
    {instr : Instr} {footprint : Footprint}
    (required : state.require setting queue instr footprint instr.sync = (after, asked))
    (settles : instr.opcode = .sDcacheWb ∨ state.readsStaleScalar setting instr = true)
    {program : Program} {flight : Flight}
    (knows : KnowsScalar setting.generation program state flight) (met : Met asked.wait flight) :
    ∀ token ∈ flight, token.operation.event ≠ .smem := by
  intro token member event
  have counted := knows.counted token member
  rw [event] at counted
  have here := counter_of_smem early counted
  have busy := knows.busy token member event
  have remains := met.get_ne_zero member
  rw [here] at busy remains
  have needed := ((of_require required).1.trans (entails_combine_right _ _)).at .lgkm
  obtain ⟨bound, drained, least⟩ := needed.trans
    (State.needs_entailsAt_scalar busy settles footprint instr.sync queue.delay) 0 rfl
  rw [Nat.le_zero.mp least] at drained
  exact remains drained

end Hazard

namespace InsertWaits

/-- What is known of scalar memory is passed on along the edges of both graphs. -/
theorem relays_knowsScalar (program : Program) (generation : Generation) :
    Relays program program.EitherEdge fun _ => KnowsScalar generation program where
  seed absorbs knows := knows.absorbed (absorbs true)
  edge follows absorbs knows := by
    obtain ⟨graph, edge⟩ := follows
    exact knows.absorbed (absorbs graph edge)

/-- Before GFX12, along every route over the edges of either graph and for every order in which
operations leave: when a write-back of the scalar cache is issued, nothing of scalar memory is in
flight; and where the hardware lets a scalar load overtake a scalar store, when a load that must not
be reordered is issued, every operation of scalar memory in flight that must not be reordered is one
of a load. -/
theorem scalar_stores_over_at_issue {config : Config} {target : Target}
    {program rewritten : Program} (edges : WellFormed.checkGraphs program = .ok ())
    (rewrites : Rewrites config target program rewritten) (early : target.generation < .gfx12)
    (accesses : Nat) {route : List Nat} {here : Nat}
    (leads : program.Leads program.EitherEdge route here) {source block : Block}
    (original : program.blocks[here]? = some source) (visible : source.isExempt = false)
    (found : rewritten.blocks[here]? = some block) {passed rest : List Instr} {instr : Instr}
    (whole : block.instrs = passed ++ instr :: rest) {flight : Flight}
    (stands : Stands target.generation (inheritedFlight target.generation program accesses)
      (rewritten.codeAlong route ++ passed) (instr :: rest) flight) :
    (instr.opcode = .sDcacheWb → ∀ token ∈ flight, token.operation.event ≠ .smem) ∧
    (target.errata.scalarStoreLoad = true → .gfx10 ≤ target.generation →
      instr.isScalarMemory = true → instr.definitions ≠ [] → instr.sync.canReorder = false →
      ∀ token ∈ flight, token.IsScalarInPlace → IsScalarLoad target.generation program token) := by
  have simulates := @simulates_knowsScalar (config.setting target program) early program
  obtain ⟨state, left, schedule, scheduled, enters⟩ := rewrites.simulates edges simulates
    (relays_knowsScalar program target.generation) (fun _ member => member)
    (fun seeded _ => knowsScalar_inherited program accesses seeded) leads original visible found
  have ordinary := (stands.about instr rest rfl).1
  obtain ⟨start, arriving, stands⟩ := stands.split
  obtain ⟨earlier, origin, later, place, kept, count⟩ :=
    exists_source scheduled.transfer scheduled.lowered whole ordinary
  have listed : ∀ instr ∈ earlier, instr ∈ program.instrs := by
    intro instr member
    refine scheduled.mem_instrs ?_
    rw [place]
    exact List.mem_append_left _ member
  obtain ⟨middle, queue, footprint, next, asked, _, required, knows, met, emitted⟩ :=
    @Simulates.required_at _ _ _ _ _ _ _ _ _ _ _ _ [] simulates scheduled.transfer
      scheduled.lowered _ _ _ place listed whole count (enters start arriving) stands
  obtain ⟨ready, _, copied⟩ := emitted kept
  obtain ⟨rfl, rfl⟩ := List.cons.inj copied
  have drained := fun settles =>
    @no_scalar_of_require (config.setting target program) _ _ early _ _ _ _ required settles _ _
      knows met
  refine ⟨?_, ?_⟩
  · intro writesBack
    rw [opcode_absorbExports] at writesBack
    exact drained (.inl writesBack)
  · intro erratum recent scalar defines fixed token member inPlace
    by_contra store
    have raised := knows.pending recent token member inPlace store
    unfold Instr.isScalarMemory Instr.encoding at scalar
    rw [opcode_absorbExports] at scalar
    rw [definitions_absorbExports] at defines
    rw [sync_absorbExports] at fixed
    have stale := @readsStaleScalar_of_raised (config.setting target program) middle erratum recent
      origin scalar defines fixed raised
    exact drained (.inr stale) token member inPlace.1

namespace StoreThenScalar

/-- A store to a buffer. -/
def store : Instr := { opcode := .bufferStoreDword, payload := .memory (.ofStorage .buffer) }

/-- A store to a buffer through scalar memory. -/
def scalarStore : Instr where
  opcode := .sBufferStoreDword
  payload := .memory (.ofStorage .buffer)

/-- A write-back of the scalar cache. -/
def writeBack : Instr := { opcode := .sDcacheWb }

/-- A load from a buffer through scalar memory. -/
def load : Instr where
  opcode := .sBufferLoadDword
  definitions := [⟨⟨0⟩, .scalar 1⟩]
  payload := .memory (.ofStorage .buffer)

/-- A program of one block. -/
def program (instrs : List Instr) : Program where
  blocks := #[{ kind := .flag 0, instrs }]

/-- The wait for scalar memory. -/
def waitForScalar : Instr := .immediate .sWaitcnt 0xc07f

/-- The store in flight. -/
def stored : Token := ⟨{ event := .vmemStore, sync := .ofStorage .buffer }, .vs⟩

/-- The store through scalar memory in flight on the given counter. -/
def storedScalar (counter : Counter) : Token :=
  ⟨{ event := .smem, sync := .ofStorage .buffer }, counter⟩

/-- A wait for scalar memory is placed behind the stores. -/
theorem rewrites_waiting {next : Instr} (known : next = writeBack ∨ next = load) :
    Rewrites { forceWaits := false, maxVisits := 1 } (.ofGeneration .gfx10p3)
      (program [store, scalarStore, next]) (program [store, scalarStore, waitForScalar, next]) := by
  rcases known with rfl | rfl
  all_goals
    exact @rewrites_single { forceWaits := false, maxVisits := 1 } (.ofGeneration .gfx10p3)
      { kind := .flag 0, instrs := _ } (by decide) (by decide) (by decide) _
      (Outcome.eq_ok_of_toOption (by decide +kernel))

/-- Behind the wait only the other store is in flight. -/
theorem stands_waiting {next : Instr} (known : next = writeBack ∨ next = load) :
    Stands .gfx10p3 [] [store, scalarStore, waitForScalar] [next] [stored] := by
  constructor
  · refine .issue (by decide) (.issue (by decide) ?_)
    change Runs .gfx10p3 [stored, storedScalar .lgkm] [waitForScalar] [stored]
    refine .retire (.leave [stored] (storedScalar .lgkm) [] (.inl (by decide))) ?_
    exact .issue (by decide) (.done _)
  · rintro instr rest ⟨rfl, rfl⟩
    rcases known with rfl | rfl <;> decide

end StoreThenScalar

open StoreThenScalar in
/-- When the cache is written back, and when a load follows, the store through scalar memory is over
and the other one is in flight. -/
theorem scalar_store_over_at_write_back_and_load :
    (Stands .gfx10p3 [] [store, scalarStore, waitForScalar] [writeBack] [stored] ∧
      ∀ token ∈ [stored], token.operation.event ≠ .smem) ∧
    (Stands .gfx10p3 [] [store, scalarStore, waitForScalar] [load] [stored] ∧
      ∀ token ∈ [stored], token.IsScalarInPlace →
        IsScalarLoad .gfx10p3 (program [store, scalarStore, load]) token) := by
  have whole (next : Instr) : [store, scalarStore, waitForScalar, next] =
      [store, scalarStore, waitForScalar] ++ next :: [] := rfl
  refine ⟨⟨stands_waiting (.inl rfl), ?_⟩, ⟨stands_waiting (.inr rfl), ?_⟩⟩
  · exact (scalar_stores_over_at_issue (by decide) (rewrites_waiting (.inl rfl)) (by decide) 0
      .start rfl (by decide) rfl (whole writeBack) (stands_waiting (.inl rfl))).1 rfl
  · exact (scalar_stores_over_at_issue (by decide) (rewrites_waiting (.inr rfl)) (by decide) 0
      .start rfl (by decide) rfl (whole load) (stands_waiting (.inr rfl))).2 rfl (by decide) rfl
      (by decide) (by decide)

namespace StoreThenScalar

/-- A program is left as it is, and its last instruction is issued while the store through scalar
memory is in flight. -/
structure Overtakes (target : Target) (next : Instr) (token : Token) : Prop where
  edges : WellFormed.checkGraphs (program [scalarStore, next]) = .ok ()
  rewrites : Rewrites { forceWaits := false, maxVisits := 1 } target (program [scalarStore, next])
    (program [scalarStore, next])
  stands : Stands target.generation [] [scalarStore] [next] [token]
  inPlace : token.IsScalarInPlace
  store : ¬IsScalarLoad target.generation (program [scalarStore, next]) token

/-- No wait is placed behind the store. -/
theorem rewrites_unchanged {next : Instr} (known : next = writeBack ∨ next = load) :
    Rewrites { forceWaits := false, maxVisits := 1 } (.ofGeneration .gfx12)
      (program [scalarStore, next]) (program [scalarStore, next]) := by
  rcases known with rfl | rfl
  all_goals
    exact @rewrites_single { forceWaits := false, maxVisits := 1 } (.ofGeneration .gfx12)
      { kind := .flag 0, instrs := _ } (by decide) (by decide) (by decide) _
      (Outcome.eq_ok_of_toOption (by decide +kernel))

/-- The store is in flight once it is issued. -/
theorem mem_launch_scalarStore : storedScalar .km ∈ launch .gfx12 scalarStore := by decide

/-- The store is in flight when the next instruction is issued. -/
theorem stands_unchanged {next : Instr} (known : next = writeBack ∨ next = load) :
    Stands .gfx12 [] [scalarStore] [next] [storedScalar .km] := by
  constructor
  · exact .issue (by decide) (.done _)
  · rintro instr rest ⟨rfl, rfl⟩
    rcases known with rfl | rfl <;> decide

end StoreThenScalar

open StoreThenScalar in
/-- On GFX12 a write-back of the cache, and a load that must not be reordered, overtake a store
through scalar memory. -/
theorem scalar_store_overtaken_on_gfx12 :
    Overtakes (.ofGeneration .gfx12) writeBack (storedScalar .km) ∧
      (Target.ofGeneration .gfx12).errata.scalarStoreLoad = true ∧
      load.isScalarMemory = true ∧ load.definitions ≠ [] ∧ load.sync.canReorder = false ∧
      Overtakes (.ofGeneration .gfx12) load (storedScalar .km) := by
  refine ⟨?_, by decide, by decide, by decide, by decide, ?_⟩
  · exact ⟨by decide, rewrites_unchanged (.inl rfl), stands_unchanged (.inl rfl), by decide,
      not_isScalarLoad_of_store (by decide) (by decide) rfl mem_launch_scalarStore⟩
  · exact ⟨by decide, rewrites_unchanged (.inr rfl), stands_unchanged (.inr rfl), by decide,
      not_isScalarLoad_of_store (by decide) (by decide) rfl mem_launch_scalarStore⟩

end InsertWaits

end WaveHazard
