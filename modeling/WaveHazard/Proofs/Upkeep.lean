import WaveHazard.Proofs.Awaiting
import WaveHazard.Proofs.Launches

/-! # What the analysis knows of an operation in flight

Three things can be known of an operation in flight: that its counter may be above zero, that the
fence of every memory it accesses waits for it, and that the entry of every register it writes or
locks waits for it. Each of them is established when the operation is issued, survives everything
that is issued later, and survives every wait that does not cover the operation.
-/

namespace WaveHazard.Hazard

open Machine Wait

variable {generation : Generation} {state : State} {token : Token} {count : Nat}

/-- Whether others can see that the operation accesses a kind of memory. -/
def Operation.accesses (operation : Operation) (index : Nat) : Bool :=
  operation.sync.storage.has index && !operation.sync.semantics.contains Semantics.isPrivate

/-- The state knows that the counter of an operation may be above zero. -/
structure Busy (generation : Generation) (state : State) (token : Token) : Prop where
  counted : (generation.counted token.counter).holds token.operation.event = true
  inFlight : state.inFlight.holds token.counter = true

/-- The fence of a kind of memory waits for an operation. -/
def FencesAt (state : State) (index : Fin storageCount) (token : Token) (count : Nat) : Prop :=
  Awaits (state.fence index).wait (state.fence index).events token count

/-- The entry of a slot waits for an operation. -/
def GuardsAt (state : State) (slot : Slot) (onRead : Bool) (token : Token) (count : Nat) : Prop :=
  ∃ entry, state.registers.get? slot = some entry ∧ entry.Guards onRead token count

namespace State

/-- While arithmetic passes, the counters in flight stay the same. -/
theorem inFlight_ageArithmetic (state : State) (isValu isTrans forget : Bool) (cycles : Int) :
    (state.ageArithmetic isValu isTrans forget cycles).inFlight = state.inFlight := by
  unfold ageArithmetic
  rfl

/-- While arithmetic passes, the fences stay the same. -/
theorem fences_ageArithmetic (state : State) (isValu isTrans forget : Bool) (cycles : Int) :
    (state.ageArithmetic isValu isTrans forget cycles).fences = state.fences := by
  unfold ageArithmetic
  rfl

end State

/-- Only the counters in flight decide whether an operation is known to be in flight. -/
theorem Busy.of_inFlight_eq {other : State} (busy : Busy generation state token)
    (same : other.inFlight = state.inFlight) : Busy generation other token :=
  ⟨busy.counted, same ▸ busy.inFlight⟩

/-- Only the fences decide whether one of them waits for an operation. -/
theorem FencesAt.of_fences_eq {other : State} {index : Fin storageCount}
    (fences : FencesAt state index token count) (same : other.fences = state.fences) :
    FencesAt other index token count := by
  unfold FencesAt State.fence at fences ⊢
  rw [same]
  exact fences

section Apply

/-- An effect that counts an event in order makes room for one operation at least. -/
theorem one_le_advance {effect : Effect} {event : Event} (counts : effect.event? = some event)
    (ordered : generation.isUnordered (.single event) = false) :
    1 ≤ advance generation event [effect] := by
  unfold advance
  rw [ordered, if_neg Bool.false_ne_true]
  simp [counts]

/-- What one effect keeps, up to the room it adds, all effects keep. -/
theorem applyAll_keeps {event : Event} (property : State → Nat → Prop)
    (step : ∀ (state : State) effect count, property state count →
      property (state.apply generation effect) (count + advance generation event [effect]))
    (effects : List Effect) (holds : property state count) :
    property (state.applyAll generation effects) (count + advance generation event effects) := by
  induction effects generalizing state count with
  | nil =>
      rw [advance_eq_zero fun _ member => absurd member List.not_mem_nil]
      exact holds
  | cons effect rest ih =>
      rw [advance_cons, ← Nat.add_assoc]
      exact ih (step state effect count holds)

/-- What an effect establishes holds after all of them, if nothing of the event is counted later. -/
theorem Settles.applyAll {event : Event} {establishes : Effect → Prop} {effects : List Effect}
    (property : State → Nat → Prop) (settles : Settles effects event establishes)
    (step : ∀ (state : State) effect count, property state count →
      property (state.apply generation effect) (count + advance generation event [effect]))
    (established : ∀ (state : State) effect, establishes effect →
      property (state.apply generation effect) 0) :
    property (state.applyAll generation effects) 0 := by
  obtain ⟨early, effect, late, rfl, holds, others⟩ := settles
  have kept := applyAll_keeps property step late
    (established (state.applyAll generation early) effect holds)
  rw [advance_eq_zero others] at kept
  unfold State.applyAll at kept ⊢
  rw [List.foldl_append, List.foldl_cons]
  exact kept

/-- Counting an event puts all its counters in flight. -/
theorem inFlight_count (event : Event) (sync : Sync) :
    (state.count generation event sync).inFlight =
      state.inFlight ||| generation.countersOf event := by
  unfold State.count
  dsimp only
  split <;> rfl

/-- Flat accesses are counted on two counters, on every generation. -/
theorem countersOf_flat : generation.countersOf .flat = Counters.ofList [.lgkm, .vm] := by
  cases generation <;> decide

/-- Counters that are known to be in flight stay so. -/
theorem holds_inFlight_apply {counter : Counter} (held : state.inFlight.holds counter = true)
    (effect : Effect) : (state.apply generation effect).inFlight.holds counter = true := by
  cases effect with
  | count event sync =>
      change (state.count generation event sync).inFlight.holds counter = true
      rw [inFlight_count, Counters.holds_or, held]
      rfl
  | flatLoad sync =>
      change Counters.holds (state.inFlight ||| Counters.ofList [.lgkm, .vm]) counter = true
      rw [Counters.holds_or, held]
      rfl
  | track slots entry => exact held
  | scalarStore => exact held

/-- Effects leave the counters in flight that are. -/
theorem holds_inFlight_applyAll {counter : Counter} (held : state.inFlight.holds counter = true)
    (effects : List Effect) :
    (state.applyAll generation effects).inFlight.holds counter = true := by
  induction effects generalizing state with
  | nil => exact held
  | cons effect rest ih => exact ih (holds_inFlight_apply held effect)

/-- Effects do not make the state forget that an operation is in flight. -/
theorem Busy.apply (busy : Busy generation state token) (effect : Effect) :
    Busy generation (state.apply generation effect) token :=
  ⟨busy.counted, holds_inFlight_apply busy.inFlight effect⟩

/-- Counting an operation puts its counters in flight. -/
theorem busy_of_operation? {effect : Effect} {sync : Sync}
    (counts : effect.operation? = some (token.operation.event, sync))
    (counted : (generation.counted token.counter).holds token.operation.event = true) :
    Busy generation (state.apply generation effect) token := by
  refine ⟨counted, ?_⟩
  cases effect with
  | count event other =>
      cases counts
      change (state.count generation _ sync).inFlight.holds token.counter = true
      rw [inFlight_count, Counters.holds_or, Generation.holds_countersOf, counted, Bool.or_true]
  | flatLoad other =>
      have flat : token.operation.event = .flat := (Prod.mk.inj (Option.some.inj counts)).1.symm
      change Counters.holds (state.inFlight ||| Counters.ofList [.lgkm, .vm]) token.counter = true
      rw [← countersOf_flat, Counters.holds_or, Generation.holds_countersOf, ← flat, counted,
        Bool.or_true]
  | track slots entry => cases counts
  | scalarStore => cases counts

/-- Counting an event changes the fences as an access of that event does. -/
theorem fences_count (event : Event) (sync : Sync) :
    (state.count generation event sync).fences =
      (state.countFences generation (generation.countersOf event) (.single event) sync).fences := by
  unfold State.count
  dsimp only
  split <;> rfl

/-- Counting an operation tells every fence of it. -/
theorem fence_apply {effect : Effect} {event : Event} {sync : Sync}
    (counts : effect.operation? = some (event, sync)) (index : Fin storageCount) :
    (state.apply generation effect).fence index =
      (state.fence index).after generation index (generation.countersOf event) (.single event)
        sync := by
  cases effect with
  | count other also =>
      cases counts
      change (state.count generation event sync).fence index = _
      unfold State.fence
      rw [fences_count]
      exact Vector.getElem_mapIdx ..
  | flatLoad also =>
      cases counts
      rw [countersOf_flat]
      exact Vector.getElem_mapIdx ..
  | track slots entry => cases counts
  | scalarStore => cases counts

/-- An effect that counts nothing leaves the fences as they are. -/
theorem fences_apply_of_none {effect : Effect} (counts : effect.operation? = none) :
    (state.apply generation effect).fences = state.fences := by
  cases effect with
  | count event sync => cases counts
  | flatLoad sync => cases counts
  | track slots entry => rfl
  | scalarStore => rfl

/-- A fence goes on waiting for an operation, with room for those that an effect counts. -/
theorem FencesAt.apply {index : Fin storageCount} (fences : FencesAt state index token count)
    (counted : (generation.counted token.counter).holds token.operation.event = true)
    (effect : Effect) :
    FencesAt (state.apply generation effect) index token
      (count + advance generation token.operation.event [effect]) := by
  cases counts : effect.operation? with
  | none =>
      have kept : FencesAt (state.apply generation effect) index token count :=
        fences.of_fences_eq (fences_apply_of_none counts)
      exact kept.mono (Entails.refl _) kept.named (Nat.le_add_right _ _)
  | some operation =>
      unfold FencesAt at fences ⊢
      rw [fence_apply counts]
      refine Fence.awaits_after fences counted (fun ordered same => ?_) _ _
      exact one_le_advance (by rw [Effect.event?, counts, ← same]; rfl) ordered

/-- Counting an access to a kind of memory records it. -/
theorem fencesAt_of_operation? {effect : Effect} {index : Fin storageCount}
    (counts : effect.operation? = some (token.operation.event, token.operation.sync))
    (counted : (generation.counted token.counter).holds token.operation.event = true)
    (accesses : token.operation.accesses index = true) :
    FencesAt (state.apply generation effect) index token 0 := by
  unfold FencesAt
  rw [fence_apply counts]
  unfold Operation.accesses at accesses
  unfold Fence.after
  rw [if_pos accesses]
  exact Fence.awaits_record_self (by rw [Generation.holds_countersOf, counted])

variable {slot : Slot} {onRead : Bool}

theorem GuardsAt.mono (guards : GuardsAt state slot onRead token count) {larger : Nat}
    (room : count ≤ larger) : GuardsAt state slot onRead token larger := by
  obtain ⟨entry, found, guard⟩ := guards
  exact ⟨entry, found, guard.mono room⟩

/-- Tracking slots keeps what their entries know. -/
theorem GuardsAt.track (guards : GuardsAt state slot onRead token count) (slots : List Slot)
    (entry : Entry) : GuardsAt (state.track slots entry) slot onRead token count := by
  unfold GuardsAt State.track at *
  dsimp only
  generalize state.registers = registers at guards
  induction slots generalizing registers with
  | nil => exact guards
  | cons first rest ih =>
      obtain ⟨held, found, guard⟩ := guards
      apply ih
      rw [Index.SlotMap.get?_alter]
      split
      · rename_i same
        rw [same, found]
        exact ⟨_, rfl, guard.join_left entry⟩
      · exact ⟨held, found, guard⟩

/-- A slot that is tracked knows what the new entry knows. -/
theorem guardsAt_track {slots : List Slot} (member : slot ∈ slots) {entry : Entry}
    (guard : entry.Guards onRead token count) :
    GuardsAt (state.track slots entry) slot onRead token count := by
  obtain ⟨early, late, rfl⟩ := List.append_of_mem member
  have reached : state.track (early ++ slot :: late) entry =
      ((state.track early entry).track [slot] entry).track late entry := by
    unfold State.track
    rw [List.foldl_append]
    rfl
  rw [reached]
  apply GuardsAt.track
  generalize state.track early entry = before
  unfold GuardsAt State.track
  rw [List.foldl_cons, List.foldl_nil, Index.SlotMap.get?_alter, if_pos rfl]
  cases before.registers.get? slot with
  | none => exact ⟨entry, rfl, guard⟩
  | some held => exact ⟨_, rfl, guard.join_right held⟩

/-- A slot goes on waiting for an operation, with room for those that an effect counts. -/
theorem GuardsAt.apply (guards : GuardsAt state slot onRead token count)
    (counted : (generation.counted token.counter).holds token.operation.event = true)
    (effect : Effect) :
    GuardsAt (state.apply generation effect) slot onRead token
      (count + advance generation token.operation.event [effect]) := by
  cases effect with
  | count event sync =>
      obtain ⟨entry, found, guard⟩ := guards
      change GuardsAt (state.count generation event sync) slot onRead token _
      unfold State.count
      dsimp only
      split
      · exact ⟨entry, found, guard.mono (Nat.le_add_right _ _)⟩
      · unfold GuardsAt
        dsimp only
        rw [Index.SlotMap.get?_map]
        refine ⟨_, congrArg _ found, guard.age counted (fun ordered same => ?_) _⟩
        exact one_le_advance (by rw [← same]; rfl) ordered
  | flatLoad sync =>
      obtain ⟨entry, found, guard⟩ := guards
      change GuardsAt (state.flatLoad generation sync) slot onRead token _
      unfold GuardsAt State.flatLoad
      dsimp only
      rw [Index.SlotMap.get?_map]
      exact ⟨_, congrArg _ found, guard.drain _⟩
  | track slots entry =>
      exact (guards.mono (Nat.le_add_right _ _)).track slots entry
  | scalarStore =>
      exact guards.mono (Nat.le_add_right _ _)

/-- Tracking the slots of an operation guards them. -/
theorem guardsAt_of_covers {effect : Effect}
    (covers : effect.Covers generation token.operation.event onRead slot)
    (counted : (generation.counted token.counter).holds token.operation.event = true) :
    GuardsAt (state.apply generation effect) slot onRead token 0 := by
  obtain ⟨slots, logical, loads, cycles, rfl, member⟩ := covers
  exact guardsAt_track member (.ofEvent counted logical onRead loads cycles)

end Apply

section Pass

variable {setting : Setting} {slot : Slot} {onRead : Bool}

/-- Operations in flight are no arithmetic producers, so aging those keeps them. -/
theorem GuardsAt.ageArithmetic (guards : GuardsAt state slot onRead token count)
    (counted : (generation.counted token.counter).holds token.operation.event = true)
    (isValu isTrans forget : Bool) (cycles : Int) :
    GuardsAt (state.ageArithmetic isValu isTrans forget cycles) slot onRead token count := by
  obtain ⟨entry, found, guard⟩ := guards
  unfold GuardsAt State.ageArithmetic
  dsimp only
  rw [Index.SlotMap.get?_retain, found]
  have kept : (if forget then entry.dropArithmetic
      else if (entry.delay.age isValu isTrans cycles).isEmpty then
        Entry.dropArithmetic { entry with delay := entry.delay.age isValu isTrans cycles }
      else { entry with delay := entry.delay.age isValu isTrans cycles }).Guards onRead token
        count := by
    split
    · exact guard.dropArithmetic counted
    · split
      · exact (guard.delay _).dropArithmetic counted
      · exact guard.delay _
  exact ⟨_, kept.unlessDone, kept⟩

/-- A wait that does not drain a counter leaves it in flight. -/
theorem holds_inFlight_pass {counter : Counter} (held : state.inFlight.holds counter = true)
    {queue : Queue} (remains : queue.wait.get counter ≠ some 0) :
    (state.pass setting queue).inFlight.holds counter = true := by
  have fold (drained : List Counter) (inFlight : Counters) (held : inFlight.holds counter = true)
      (others : ∀ other ∈ drained, other ≠ counter) :
      Counters.holds (drained.foldl (fun inFlight counter =>
        inFlight.diff (Counters.single counter)) inFlight) counter = true := by
    induction drained generalizing inFlight with
    | nil => exact held
    | cons other rest ih =>
        refine ih _ ?_ fun another member => others another (List.mem_cons_of_mem _ member)
        rw [Counters.holds_diff, held, Counters.holds_single]
        simp [others other List.mem_cons_self]
  have left := fold (Counter.all.filter fun counter => queue.wait.get counter == some 0)
    state.inFlight held (by
      rintro other member rfl
      exact remains (beq_iff_eq.mp (List.mem_filter.mp member).2))
  unfold State.pass
  dsimp only
  split <;> exact left

/-- An operation is still known to be in flight behind waits that do not drain its counter. -/
theorem Busy.pass (busy : Busy setting.generation state token) {queue : Queue}
    (remains : queue.wait.get token.counter ≠ some 0) :
    Busy setting.generation (state.pass setting queue) token :=
  ⟨busy.counted, holds_inFlight_pass busy.inFlight remains⟩

/-- Passing a wait clears every fence. -/
theorem fence_pass (queue : Queue) (index : Fin storageCount) :
    (state.pass setting queue).fence index =
      State.clearFence setting queue.wait (state.fence index) := by
  have mapped : (state.pass setting queue).fences =
      state.fences.map (State.clearFence setting queue.wait) := by
    unfold State.pass
    dsimp only
    split <;> rfl
  unfold State.fence
  rw [mapped]
  exact Vector.getElem_map ..

/-- A fence goes on waiting for an operation behind waits that leave room for it. -/
theorem FencesAt.pass {index : Fin storageCount} (fences : FencesAt state index token count)
    (counted : (setting.generation.counted token.counter).holds token.operation.event = true)
    {queue : Queue}
    (remains : ∀ bound, queue.wait.get token.counter = some bound → count < bound) :
    FencesAt (state.pass setting queue) index token count := by
  unfold FencesAt
  rw [fence_pass]
  exact Fence.awaits_clearFence fences counted remains

/-- A slot goes on waiting for an operation behind waits that leave room for it. -/
theorem GuardsAt.pass (guards : GuardsAt state slot onRead token count)
    (counted : (setting.generation.counted token.counter).holds token.operation.event = true)
    {queue : Queue}
    (remains : ∀ bound, queue.wait.get token.counter = some bound → count < bound) :
    GuardsAt (state.pass setting queue) slot onRead token count := by
  unfold State.pass
  extract_lets lowered aged
  have before : GuardsAt aged slot onRead token count := by
    change GuardsAt (if _ then _ else _) slot onRead token count
    split
    · exact GuardsAt.ageArithmetic guards counted _ _ _ _
    · exact guards
  obtain ⟨entry, found, guard⟩ := before
  obtain ⟨after, kept, guarded⟩ := guard.clearEntry counted remains
  unfold GuardsAt
  dsimp only
  rw [Index.SlotMap.get?_retain, found]
  exact ⟨after, kept, guarded⟩

end Pass

end WaveHazard.Hazard
