import WaveHazard.Proofs.Upkeep

/-! # Invariants of the analysis

An invariant relates a state of the analysis to the operations in flight, one operation and its
room at a time. It is upheld when it is established for the operations that effects realize, kept
by all effects and by aging, and kept by passing a wait that an operation has outlived. From that
follows what holds of whole flights: it survives operations that leave, a queue that is met, and the
issue of an instruction.

There are three of them. Fences have a record of every access in flight. They know of it if its
counter is known to be in flight as well, and entries in the same way know of every operation that
writes or locks a register.
-/

namespace WaveHazard.Hazard

open Machine Wait

/-- The fences of a state have a record of an operation. -/
structure Recorded (generation : Generation) (state : State) (token : Token) (count : Nat) :
    Prop where
  counted : (generation.counted token.counter).holds token.operation.event = true
  fences : ∀ index : Fin storageCount, token.operation.accesses index = true →
    FencesAt state index token count

/-- The fences of a state know of an operation. -/
structure Fenced (generation : Generation) (state : State) (token : Token) (count : Nat) : Prop
    extends Busy generation state token where
  fences : ∀ index : Fin storageCount, token.operation.accesses index = true →
    FencesAt state index token count

/-- The register entries of a state know of an operation. -/
structure Guarded (generation : Generation) (state : State) (token : Token) (count : Nat) : Prop
    extends Busy generation state token where
  writes : ∀ slot ∈ token.operation.writes, GuardsAt state slot true token count
  locks : ∀ slot ∈ token.operation.locks, GuardsAt state slot false token count
  late : token.operation.locks ≠ [] →
    (generation.counted .exp).holds token.operation.event = true

/-- The analysis upholds an invariant. A strict one relies on asynchronous instructions with at
most one definition. -/
structure Upheld (setting : Setting) (strict : Prop)
    (invariant : State → Token → Nat → Prop) : Prop where
  counted : ∀ {state token count}, invariant state token count →
    (setting.generation.counted token.counter).holds token.operation.event = true
  mono : ∀ {state token count larger}, invariant state token count → count ≤ larger →
    invariant state token larger
  fresh : ∀ {state : State} {effects operations single}, (strict → single) →
    Realized setting.generation effects operations single → ∀ operation ∈ operations,
      ∀ token ∈ operation.tokens setting.generation,
        invariant (state.applyAll setting.generation effects) token 0
  apply : ∀ {state : State} {token} effect count, invariant state token count →
    invariant (state.apply setting.generation effect) token
      (count + advance setting.generation token.operation.event [effect])
  age : ∀ {state : State} {token count} isValu isTrans forget cycles,
    invariant state token count →
      invariant (state.ageArithmetic isValu isTrans forget cycles) token count
  pass : ∀ {state : State} {token count queue}, invariant state token count →
    (∀ bound, queue.wait.get token.counter = some bound → count < bound) →
      invariant (state.pass setting queue) token count
  flags : ∀ {state : State} {token count} flatVm flatLgkm scalarStore,
    invariant state token count →
      invariant { state with flatVm, flatLgkm, scalarStore } token count

section Instances

variable {setting : Setting} {generation : Generation} {state : State} {token : Token} {count : Nat}

/-- An operation that is counted puts its counter in flight. -/
theorem busy_of_realized {effects : List Effect} {operations : List Operation} {single : Prop}
    (realized : Realized generation effects operations single)
    (member : token.operation ∈ operations)
    (counted : (generation.counted token.counter).holds token.operation.event = true) :
    Busy generation (state.applyAll generation effects) token :=
  Settles.applyAll (fun state _ => Busy generation state token) (realized.counts _ member)
    (fun _ effect _ busy => busy.apply effect) fun _ _ found => busy_of_operation? found counted

/-- An operation that others can see is waited for by the fences of its memory once it is issued. -/
theorem fencesAt_of_realized {effects : List Effect} {operations : List Operation} {single : Prop}
    (realized : Realized generation effects operations single)
    (member : token.operation ∈ operations)
    (counted : (generation.counted token.counter).holds token.operation.event = true)
    {index : Fin storageCount} (accesses : token.operation.accesses index = true) :
    FencesAt (state.applyAll generation effects) index token 0 :=
  Settles.applyAll (fun state count => FencesAt state index token count)
    (realized.counts _ member) (fun _ effect _ fences => fences.apply counted effect)
    fun _ _ found => fencesAt_of_operation? found counted accesses

/-- A slot that some effect makes wait for an event waits for its latest operation. -/
theorem guardsAt_of_settles {effects : List Effect} {slot : Slot} {onRead : Bool}
    (settles : Settles effects token.operation.event
      (Effect.Covers generation token.operation.event onRead slot))
    (counted : (generation.counted token.counter).holds token.operation.event = true) :
    GuardsAt (state.applyAll generation effects) slot onRead token 0 :=
  Settles.applyAll (fun state count => GuardsAt state slot onRead token count) settles
    (fun _ effect _ guards => guards.apply counted effect)
    fun _ _ covers => guardsAt_of_covers covers counted

/-- An operation that need not have left is still known to be in flight. -/
theorem Busy.pass_of_remains (busy : Busy setting.generation state token) {queue : Queue}
    (remains : ∀ bound, queue.wait.get token.counter = some bound → count < bound) :
    Busy setting.generation (state.pass setting queue) token :=
  busy.pass fun drained => Nat.not_lt_zero _ (remains 0 drained)

/-- The analysis keeps a record of every operation in flight. -/
theorem upheld_recorded (setting : Setting) :
    Upheld setting False (Recorded setting.generation) where
  counted recorded := recorded.counted
  mono recorded room :=
    ⟨recorded.counted, fun index accesses =>
      (recorded.fences index accesses).mono (Entails.refl _)
        (recorded.fences index accesses).named room⟩
  fresh := by
    intro state effects operations single _ realized operation member token launched
    obtain ⟨rfl, counted⟩ := mem_tokens.mp launched
    exact ⟨counted, fun index accesses => fencesAt_of_realized realized member counted accesses⟩
  apply := by
    intro state token effect count recorded
    exact ⟨recorded.counted, fun index accesses =>
      (recorded.fences index accesses).apply recorded.counted effect⟩
  age := by
    intro state token count isValu isTrans forget cycles recorded
    exact ⟨recorded.counted, fun index accesses =>
      (recorded.fences index accesses).of_fences_eq (State.fences_ageArithmetic ..)⟩
  pass := by
    intro state token count queue recorded remains
    exact ⟨recorded.counted, fun index accesses =>
      (recorded.fences index accesses).pass recorded.counted remains⟩
  flags := by
    intro state token count flatVm flatLgkm scalarStore recorded
    exact ⟨recorded.counted, fun index accesses =>
      (recorded.fences index accesses).of_fences_eq rfl⟩

/-- What the fences know of they have a record of. -/
theorem Fenced.recorded (fenced : Fenced generation state token count) :
    Recorded generation state token count :=
  ⟨fenced.counted, fenced.fences⟩

/-- The analysis keeps the fences waiting for every operation in flight. -/
theorem upheld_fenced (setting : Setting) :
    Upheld setting False (Fenced setting.generation) where
  counted fenced := fenced.counted
  mono fenced room :=
    ⟨fenced.toBusy, ((upheld_recorded setting).mono fenced.recorded room).fences⟩
  fresh := by
    intro state effects operations single never realized operation member token launched
    have recorded : Recorded setting.generation (state.applyAll setting.generation effects) token
        0 := (upheld_recorded setting).fresh never realized operation member token launched
    obtain ⟨rfl, counted⟩ := mem_tokens.mp launched
    exact ⟨busy_of_realized realized member counted, recorded.fences⟩
  apply := by
    intro state token effect count fenced
    exact ⟨fenced.toBusy.apply effect,
      ((upheld_recorded setting).apply effect count fenced.recorded).fences⟩
  age := by
    intro state token count isValu isTrans forget cycles fenced
    exact ⟨fenced.toBusy.of_inFlight_eq (State.inFlight_ageArithmetic ..),
      ((upheld_recorded setting).age _ _ _ _ fenced.recorded).fences⟩
  pass := by
    intro state token count queue fenced remains
    exact ⟨fenced.toBusy.pass_of_remains remains,
      ((upheld_recorded setting).pass fenced.recorded remains).fences⟩
  flags := by
    intro state token count flatVm flatLgkm scalarStore fenced
    exact ⟨fenced.toBusy.of_inFlight_eq rfl,
      ((upheld_recorded setting).flags _ _ _ fenced.recorded).fences⟩

/-- The analysis keeps the registers waiting for every operation in flight, as far as each
instruction has a single result. -/
theorem upheld_guarded (setting : Setting) :
    Upheld setting True (Guarded setting.generation) where
  counted guarded := guarded.counted
  mono guarded room :=
    ⟨guarded.toBusy, fun slot written => (guarded.writes slot written).mono room,
      fun slot locked => (guarded.locks slot locked).mono room, guarded.late⟩
  fresh := by
    intro state effects operations single alone realized operation member token launched
    obtain ⟨rfl, counted⟩ := mem_tokens.mp launched
    refine ⟨busy_of_realized realized member counted, ?_, ?_, realized.late _ member⟩
    · intro slot written
      exact guardsAt_of_settles (realized.writes (alone trivial) _ member slot written) counted
    · intro slot locked
      exact guardsAt_of_settles (realized.locks _ member slot locked) counted
  apply := by
    intro state token effect count guarded
    exact ⟨guarded.toBusy.apply effect,
      fun slot written => (guarded.writes slot written).apply guarded.counted effect,
      fun slot locked => (guarded.locks slot locked).apply guarded.counted effect, guarded.late⟩
  age := by
    intro state token count isValu isTrans forget cycles guarded
    exact ⟨guarded.toBusy.of_inFlight_eq (State.inFlight_ageArithmetic ..),
      fun slot written => (guarded.writes slot written).ageArithmetic guarded.counted _ _ _ _,
      fun slot locked => (guarded.locks slot locked).ageArithmetic guarded.counted _ _ _ _,
      guarded.late⟩
  pass := by
    intro state token count queue guarded remains
    exact ⟨guarded.toBusy.pass_of_remains remains,
      fun slot written => (guarded.writes slot written).pass guarded.counted remains,
      fun slot locked => (guarded.locks slot locked).pass guarded.counted remains, guarded.late⟩
  flags := by
    intro state token count flatVm flatLgkm scalarStore guarded
    exact ⟨guarded.toBusy.of_inFlight_eq rfl, guarded.writes, guarded.locks, guarded.late⟩

end Instances

/-- Arithmetic results are not counted. -/
theorem quiet_of_arithmetic {generation : Generation} {instr : Instr} {latency : Int}
    {effects : List Effect} (read : Effect.arithmetic generation instr latency = .ok effects) :
    Quiet effects := by
  unfold Effect.arithmetic at read
  split at read
  · cases read
    exact .nil
  · intro effect member
    obtain ⟨definition, _, defined⟩ := Outcome.mem_of_mapM_eq_ok read member
    exact (tracks_of_trackRegister defined).quiet effect (List.mem_singleton_self effect)

/-- Issuing an instruction applies its effects to a state with other arithmetic producers. -/
theorem issueAll_eq_ok {setting : Setting} {state after : State} {instr : Instr}
    (issued : issueAll setting state instr = .ok after) :
    ∃ effects middle, Effect.ofInstr setting.generation instr = .ok effects ∧
      after = State.applyAll setting.generation middle effects ∧
      (middle = state ∨ ∃ quiet isValu isTrans forget cycles, Quiet quiet ∧
        middle = (state.applyAll setting.generation quiet).ageArithmetic isValu isTrans forget
          cycles) := by
  have issue {middle : State} (issued : middle.issue setting.generation instr = .ok after) :
      ∃ effects, Effect.ofInstr setting.generation instr = .ok effects ∧
        after = middle.applyAll setting.generation effects := by
    obtain ⟨effects, read, done⟩ := Outcome.map_eq_ok.mp issued
    exact ⟨effects, read, done.symm⟩
  unfold issueAll at issued
  split at issued
  · obtain ⟨middle, arithmetic, issued⟩ := Outcome.bind_eq_ok.mp issued
    obtain ⟨quiet, read, done⟩ := Outcome.bind_eq_ok.mp arithmetic
    cases done
    obtain ⟨effects, found, rfl⟩ := issue issued
    exact ⟨effects, _, found, rfl, .inr ⟨quiet, _, _, _, _, quiet_of_arithmetic read, rfl⟩⟩
  · obtain ⟨effects, found, rfl⟩ := issue issued
    exact ⟨effects, state, found, rfl, .inl rfl⟩

/-- Issuing an instruction leaves all counters in flight. -/
theorem holds_inFlight_issueAll {setting : Setting} {state after : State} {instr : Instr}
    {counter : Counter} (held : state.inFlight.holds counter = true)
    (issued : issueAll setting state instr = .ok after) :
    after.inFlight.holds counter = true := by
  obtain ⟨effects, middle, _, rfl, arithmetic⟩ := issueAll_eq_ok issued
  refine holds_inFlight_applyAll ?_ effects
  rcases arithmetic with rfl | ⟨quiet, isValu, isTrans, forget, cycles, _, rfl⟩
  · exact held
  · rw [State.inFlight_ageArithmetic]
    exact holds_inFlight_applyAll held quiet

/-- A wait that flat loads force to drain asks for no less. -/
theorem entails_flatWait (state : State) (wait : Requirement) :
    Entails (state.flatWait wait) wait := by
  intro counter bound asked
  unfold State.flatWait
  rw [Requirement.get_ofFn]
  extract_lets drains
  split
  · exact ⟨0, rfl, Nat.zero_le bound⟩
  · exact ⟨bound, asked, Nat.le_refl bound⟩

/-- Requiring the waits of an instruction yields a queue that asks for what was queued and what the
instruction needs, and the state past that queue. -/
theorem of_require {setting : Setting} {state after : State} {queue passed : Queue} {instr : Instr}
    {footprint : Footprint} {sync : Sync}
    (required : state.require setting queue instr footprint sync = (after, passed)) :
    Entails passed.wait
        (queue.wait.combine (state.needs setting instr footprint sync queue.delay).wait) ∧
      ∃ middle, (middle = state ∨ middle = state.pass setting passed) ∧
        ∃ flatVm flatLgkm scalarStore, after = { middle with flatVm, flatLgkm, scalarStore } := by
  unfold State.require at required
  dsimp only at required
  split at required
  · cases required
    exact ⟨Entails.refl _, state, .inl rfl, _, _, _, rfl⟩
  · cases required
    exact ⟨entails_flatWait _ _, _, .inr rfl, _, _, _, rfl⟩

/-- A counter that does not have to drain stays in flight. -/
theorem holds_inFlight_require {setting : Setting} {state after : State} {queue passed : Queue}
    {instr : Instr} {footprint : Footprint} {sync : Sync} {counter : Counter}
    (held : state.inFlight.holds counter = true)
    (required : state.require setting queue instr footprint sync = (after, passed))
    (remains : passed.wait.get counter ≠ some 0) : after.inFlight.holds counter = true := by
  obtain ⟨_, middle, moved, flatVm, flatLgkm, scalarStore, rfl⟩ := of_require required
  suffices kept : middle.inFlight.holds counter = true from kept
  rcases moved with rfl | rfl
  · exact held
  · exact holds_inFlight_pass held remains

/-- Whether the analysis tracks all results of an instruction: it only tracks the first definition
of an asynchronous one. -/
def HasSingleResult (generation : Generation) (instr : Instr) : Prop :=
  isAsynchronous generation instr = true → instr.definitions.length ≤ 1

instance (generation : Generation) (instr : Instr) : Decidable (HasSingleResult generation instr) :=
  inferInstanceAs (Decidable (_ → _))

namespace Upheld

variable {setting : Setting} {strict : Prop} {invariant : State → Token → Nat → Prop}
  {state after : State} {flight : Flight}

/-- The effects of an instruction uphold an invariant of the operations issued before it. -/
theorem applyAll (upheld : Upheld setting strict invariant) {token : Token} {count : Nat}
    (holds : invariant state token count) (effects : List Effect) :
    invariant (state.applyAll setting.generation effects) token
      (count + advance setting.generation token.operation.event effects) :=
  applyAll_keeps (fun state count => invariant state token count)
    (fun _ effect count => upheld.apply effect count) effects holds

/-- Applying effects puts the operations they realize in flight. -/
theorem launch (upheld : Upheld setting strict invariant)
    (tallied : Tallied setting.generation (invariant state) flight) {effects : List Effect}
    {operations : List Operation} {single : Prop}
    (realized : Realized setting.generation effects operations single) (alone : strict → single) :
    Tallied setting.generation (invariant (state.applyAll setting.generation effects))
      (flight ++ operations.flatMap (Operation.tokens setting.generation)) := by
  refine tallied.append ?_ ?_
  · intro token count _ holds
    rw [room_tokens realized (upheld.counted holds)]
    exact upheld.applyAll holds effects
  · intro older token younger split
    have member : token ∈ operations.flatMap (Operation.tokens setting.generation) := by
      rw [split]
      exact List.mem_append_right _ List.mem_cons_self
    obtain ⟨operation, listed, launched⟩ := List.mem_flatMap.mp member
    exact upheld.mono (upheld.fresh alone realized operation listed token launched)
      (Nat.zero_le _)

/-- Issuing an instruction puts its operations in flight. -/
theorem issueAll (upheld : Upheld setting strict invariant)
    (tallied : Tallied setting.generation (invariant state) flight) {instr : Instr}
    (issued : issueAll setting state instr = .ok after)
    (single : strict → HasSingleResult setting.generation instr) :
    Tallied setting.generation (invariant after)
      (flight ++ Hazard.launch setting.generation instr) := by
  obtain ⟨effects, middle, read, rfl, arithmetic⟩ := issueAll_eq_ok issued
  have before : Tallied setting.generation (invariant middle) flight := by
    rcases arithmetic with rfl | ⟨quiet, isValu, isTrans, forget, cycles, silent, rfl⟩
    · exact tallied
    · refine tallied.mono fun token count _ holds => upheld.age _ _ _ _ ?_
      have kept := upheld.applyAll holds quiet
      rw [advance_eq_zero fun effect member => by rw [silent effect member]; exact nofun] at kept
      exact kept
  have realized := realized_of_ofInstr read
  cases asynchronous : isAsynchronous setting.generation instr with
  | true => exact upheld.launch before realized fun wanted => single wanted asynchronous
  | false =>
      have silent : operationsOf setting.generation instr = [] := by
        simpa [isAsynchronous] using asynchronous
      rw [silent] at realized
      unfold Hazard.launch
      rw [silent]
      exact upheld.launch before { realized with writes := nofun } fun _ => trivial

/-- A state moved past a queue fits every flight that has met the queue. -/
theorem require (upheld : Upheld setting strict invariant)
    (tallied : Tallied setting.generation (invariant state) flight) {queue passed : Queue}
    {instr : Instr} {footprint : Footprint} {sync : Sync}
    (required : state.require setting queue instr footprint sync = (after, passed))
    (met : Met passed.wait flight) : Tallied setting.generation (invariant after) flight := by
  obtain ⟨middle, moved, flatVm, flatLgkm, scalarStore, rfl⟩ := (of_require required).2
  have fits : Tallied setting.generation (invariant middle) flight := by
    rcases moved with rfl | rfl
    · exact tallied
    · intro older token younger split
      subst split
      exact upheld.pass (tallied older token younger rfl) fun _ asked =>
        room_lt_of_met setting.generation met asked
  exact fits.mono fun token count _ holds => upheld.flags flatVm flatLgkm scalarStore holds

/-- Loads of arguments that an earlier shader part has issued are in flight behind whatever else it
has left. -/
theorem arguments (upheld : Upheld setting strict invariant) {definitions : List Definition}
    (tallied : Tallied setting.generation (invariant state) flight)
    (folded : definitions.foldlM (fun state definition => do
      let effect ← Effect.define setting.generation definition .vmem ∅ 0
      return (state.count setting.generation .vmem {}).apply setting.generation effect) state =
        Except.ok after) :
    Tallied setting.generation (invariant after)
      (flight ++ (definitions.map fun definition =>
        ({ event := .vmem, writes := resolved definition.slots } : Operation)).flatMap
          (Operation.tokens setting.generation)) := by
  induction definitions generalizing state flight with
  | nil =>
      cases folded
      simpa using tallied
  | cons definition rest ih =>
      rw [List.foldlM_cons] at folded
      obtain ⟨next, stepped, folded⟩ := Outcome.bind_eq_ok.mp folded
      obtain ⟨effect, defined, stepped⟩ := Outcome.bind_eq_ok.mp stepped
      cases stepped
      have tracks := tracks_of_trackRegister defined
      have realized : Realized setting.generation [.count .vmem {}, effect]
          [{ event := .vmem, writes := resolved definition.slots }] True :=
        Realized.of_head rfl tracks.quiet (fun _ => tracks) ⟨tracks.quiet, nofun⟩
          fun locked => absurd rfl locked
      have issued := upheld.launch tallied realized fun _ => trivial
      simpa using ih issued folded

/-- What was pending before the program fits the state at its entry. -/
theorem atEntry (upheld : Upheld setting strict invariant) {program : Program}
    (quiet : program.pendingLocalAccess = false)
    (seeded : State.atEntry setting.generation ∅ program = .ok after) :
    Tallied setting.generation (invariant after) (entryFlight setting.generation program) := by
  unfold State.atEntry at seeded
  unfold entryFlight
  rw [quiet] at seeded ⊢
  exact upheld.arguments .nil seeded

end Upheld

/-- Issuing an instruction puts the counters of its operations in flight. -/
theorem holds_inFlight_of_launch {setting : Setting} {state after : State} {instr : Instr}
    (issued : issueAll setting state instr = .ok after) {token : Token}
    (launched : token ∈ launch setting.generation instr) :
    after.inFlight.holds token.counter = true := by
  have tallied := (upheld_fenced setting).issueAll .nil issued False.elim
  obtain ⟨_, fenced⟩ := tallied.of_mem (List.mem_append_right _ launched)
  exact fenced.inFlight

end WaveHazard.Hazard
