import WaveHazard.Proofs.Causes
import WaveHazard.Proofs.PendingThresholds
import WaveHazard.Proofs.ScalarStores

/-! # What a wait leaves

Passing a queue drains the counters it asks to be empty, and takes from entries and fences the
thresholds it covers. Everything else is left as it was: an entry keeps its other thresholds, waits
for reads if it did, and stays in order with the same accesses.
-/

namespace WaveHazard.Hazard

open Machine Wait Index

variable {generation : Generation} {setting : Setting}

section Covering

/-- The thresholds of an entry after its counters have been looked at one by one. -/
theorem get_wait_foldl_dropCounter (queue : Queue) (counters : List Counter) (entry : Entry)
    (counter : Counter) :
    (counters.foldl (fun entry counter =>
      if (queue.wait.get counter).covers (entry.wait.get counter) then
        entry.dropCounter counter (generation.counted counter)
      else entry) entry).wait.get counter =
        if counter ∈ counters ∧ (queue.wait.get counter).covers (entry.wait.get counter) then none
        else entry.wait.get counter := by
  induction counters generalizing entry with
  | nil => simp
  | cons first rest ih =>
      have dropped : (if (queue.wait.get first).covers (entry.wait.get first) then
          entry.dropCounter first (generation.counted first) else entry).wait.get counter =
            if counter = first ∧ (queue.wait.get counter).covers (entry.wait.get counter) then none
            else entry.wait.get counter := by
        have set : (entry.dropCounter first (generation.counted first)).wait.get counter =
            if counter = first then none else entry.wait.get counter := Requirement.get_set _ _ _ _
        by_cases same : counter = first
        · subst same
          split <;> simp_all
        · split <;> simp_all
      rw [List.foldl_cons, ih, dropped]
      by_cases same : counter = first
      · subst same
        cases covered : (queue.wait.get counter).covers (entry.wait.get counter) <;> simp [covered]
      · simp [same]

/-- The thresholds of an entry after a wait. -/
theorem get_wait_of_clearEntry {queue : Queue} {entry other : Entry}
    (cleared : State.clearEntry setting queue entry = some other) (counter : Counter) :
    other.wait.get counter =
      if (queue.wait.get counter).covers (entry.wait.get counter) then none
      else entry.wait.get counter := by
  unfold State.clearEntry at cleared
  extract_lets rest source delay settled at cleared
  obtain ⟨_, rfl⟩ := Entry.unlessDone_eq_some.mp cleared
  have same : (if delay.isEmpty then settled.dropArithmetic else settled).wait = rest.wait := by
    split <;> rfl
  rw [same]
  refine (get_wait_foldl_dropCounter queue Counter.all entry counter).trans ?_
  simp only [counter.mem_all, true_and]

/-- Behind a queue, a pipeline that the queue waits for far enough has no producers left. -/
def outlast (queued delay : Delay) : Delay :=
  Delay.settle { delay with
    valuInstrs := if queued.valuInstrs ≤ delay.valuInstrs then Delay.valuNone
      else delay.valuInstrs,
    transInstrs := if queued.transInstrs ≤ delay.transInstrs then Delay.transNone
      else delay.transInstrs }

/-- The delay of an entry after a wait. -/
theorem delay_eq_of_clearEntry {queue : Queue} {entry other : Entry}
    (cleared : State.clearEntry setting queue entry = some other) :
    other.delay = if (outlast queue.delay entry.delay).isEmpty then ∅
      else outlast queue.delay entry.delay := by
  have fold (counters : List Counter) (held : Entry) :
      (counters.foldl (fun held counter =>
        if (queue.wait.get counter).covers (held.wait.get counter) then
          held.dropCounter counter (setting.generation.counted counter)
        else held) held).delay = held.delay := by
    induction counters generalizing held with
    | nil => rfl
    | cons first rest ih =>
        rw [List.foldl_cons, ih]
        split <;> rfl
  unfold State.clearEntry at cleared
  extract_lets rest source delay settled at cleared
  have same : delay = outlast queue.delay entry.delay := by
    rw [← fold Counter.all entry]
    rfl
  obtain ⟨_, rfl⟩ := Entry.unlessDone_eq_some.mp cleared
  rw [← same]
  split <;> rfl

/-- The thresholds of a fence after a wait. -/
theorem get_wait_clearFence (wait : Requirement) (fence : Fence) (counter : Counter) :
    (State.clearFence setting wait fence).wait.get counter =
      if (wait.get counter).covers (fence.wait.get counter) then none
      else fence.wait.get counter := by
  unfold State.clearFence
  dsimp only
  rw [Requirement.get_only]
  unfold Requirement.isSet
  cases fence.wait.get counter with
  | none => simp
  | some bound => cases (wait.get counter).covers (some bound) <;> rfl

/-- Passing a wait adds no events to a fence. -/
theorem has_of_events_clearFence {wait : Requirement} {fence : Fence} {position : Nat}
    (held : (State.clearFence setting wait fence).events.has position = true) :
    fence.events.has position = true := by
  unfold State.clearFence at held
  extract_lets done remaining events at held
  have kept : events.has position = true := by
    dsimp only at held
    split at held
    · exact held
    · rw [FlagSet.has_diff, Bool.and_eq_true] at held
      exact held.1
  exact Fence.has_of_foldl_forget kept

end Covering

section Order

/-- Of one event that a set shares with another one, a smaller set that still has it shares just
that event. -/
theorem and_eq_single_of_le {small large counted : Events} {event : Event} (below : small ≤ large)
    (kept : small.holds event = true) (same : large &&& counted = Events.single event) :
    small &&& counted = Events.single event := by
  apply FlagSet.ext_has
  intro position
  have whole := congrArg (FlagSet.has · position) same
  simp only [FlagSet.has_and] at whole
  rw [FlagSet.has_and, ← whole]
  by_cases there : position = event.index
  · subst there
    have held : small.has event.index = true := kept
    rw [held, below _ held]
  · have apart : (Events.single event).has position = false := by
      simp [Events.single, Ne.symm there]
    rw [apart] at whole
    rw [whole]
    cases first : small.has position with
    | false => rfl
    | true => rwa [below _ first, Bool.true_and] at whole

/-- An access stays in order behind an entry that loses only other producers. -/
theorem inOrderBehind_of_le {instr : Instr} {counter : Counter} {before after : Entry}
    (inOrder : State.inOrderBehind generation instr before counter = true)
    (below : after.events ≤ before.events)
    (kept : ∀ event, event ≠ .flat → (generation.counted counter).holds event = true →
      before.events.holds event = true → after.events.holds event = true)
    (loads : counter = .vm → after.loads = before.loads) :
    State.inOrderBehind generation instr after counter = true := by
  have shared {event : Event} (other : event ≠ .flat)
      (same : before.events &&& generation.counted counter = Events.single event) :
      after.events &&& generation.counted counter = Events.single event := by
    have held : Events.holds (before.events &&& generation.counted counter) event = true := by
      simp [same]
    rw [Events.holds_and, Bool.and_eq_true] at held
    exact and_eq_single_of_le below (kept event other held.2 held.1) same
  unfold State.inOrderBehind at inOrder ⊢
  simp only [Bool.or_eq_true, Bool.and_eq_true, bne_iff_ne, beq_iff_eq] at inOrder ⊢
  rcases inOrder with ⟨⟨⟨access, first⟩, same⟩, kinds⟩ | ⟨⟨shares, rfl⟩, same⟩
  · refine .inl ⟨⟨⟨access, first⟩, shared (Effect.loadEvent_ne_flat _ _) same⟩, ?_⟩
    by_cases onLoads : counter = .vm
    · rw [loads onLoads]
      exact kinds
    · exact .inl onLoads
  · refine .inr ⟨⟨shares, rfl⟩, shared ?_ same⟩
    split <;> exact nofun

/-- Forgetting producers leaves an access in order behind those that remain. -/
theorem Entry.inOrder_keptByForgetting (instr : Instr) (counter : Counter) :
    Entry.KeptByForgetting generation fun entry => entry.wait.isSet counter = true →
      State.inOrderBehind generation instr entry counter = true where
  delay _ inOrder := inOrder
  dropArithmetic {entry} inOrder set := by
    have events (event : Event) : entry.dropArithmetic.events.holds event =
        (entry.events.holds event && !event.isArithmetic) := by
      simp [Entry.dropArithmetic]
    refine inOrderBehind_of_le (inOrder set) ?_ ?_ fun _ => rfl
    · intro position held
      change (entry.events.diff Events.arithmetic).has position = true at held
      rw [FlagSet.has_diff, Bool.and_eq_true] at held
      exact held.1
    · intro event _ counted held
      rw [events, held, generation.isArithmetic_eq_false_of_counted counted]
      rfl
  dropCounter {entry} dropped inOrder set := by
    have remains : entry.wait.isSet counter = true ∧ counter ≠ dropped := by
      change ((entry.wait.set dropped none).get counter).isSome = true at set
      rw [Requirement.get_set] at set
      split at set
      · cases set
      · rename_i different
        exact ⟨set, different⟩
    refine inOrderBehind_of_le (inOrder remains.1) ?_ ?_ ?_
    · intro position held
      unfold Entry.dropCounter at held
      dsimp only at held
      split at held
      · rw [FlagSet.has_and, Bool.and_eq_true] at held
        exact held.1
      · rw [FlagSet.has_diff, FlagSet.has_and, Bool.and_eq_true, Bool.and_eq_true] at held
        exact held.1.1
    · intro event other counted held
      have forgotten := Events.holds_forget held counted remains.2.symm
      unfold Entry.dropCounter
      dsimp only
      split
      · exact forgotten
      · simp [forgotten, Ne.symm other]
    · rintro rfl
      exact if_neg remains.2.symm

end Order

/-- Forgetting brings no threshold. -/
theorem Entry.unbound_keptByForgetting (counter : Counter) (bound : Nat) :
    Entry.KeptByForgetting generation fun entry => entry.wait.get counter ≠ some bound where
  delay _ unbound := unbound
  dropArithmetic unbound := unbound
  dropCounter {entry} dropped unbound := by
    change (entry.wait.set dropped none).get counter ≠ some bound
    rw [Requirement.get_set]
    split
    · exact nofun
    · exact unbound

/-- Forgetting does not let reads wait that did not. -/
theorem Entry.writeOnly_keptByForgetting :
    Entry.KeptByForgetting generation fun entry => entry.onRead = false :=
  ⟨fun _ writeOnly => writeOnly, id, fun _ => id⟩

namespace State

variable {state after : State} {queue passed : Queue} {counter : Counter} {bound : Nat}

/-- A counter that is in flight behind a wait did not have to drain. -/
theorem get_ne_zero_of_inFlight_pass
    (busy : (state.pass setting queue).inFlight.holds counter = true) :
    queue.wait.get counter ≠ some 0 := by
  intro drains
  have fold (drained : List Counter) (inFlight : Counters)
      (gone : counter ∈ drained ∨ inFlight.holds counter = false) :
      Counters.holds (drained.foldl (fun inFlight counter =>
        inFlight.diff (Counters.single counter)) inFlight) counter = false := by
    induction drained generalizing inFlight with
    | nil => exact gone.resolve_left List.not_mem_nil
    | cons first rest ih =>
        apply ih
        by_cases same : first = counter
        · simp [same]
        · exact gone.imp (fun member => (List.mem_cons.mp member).resolve_left (Ne.symm same))
            fun idle => by simp [idle]
  have left := fold (Counter.all.filter fun counter => queue.wait.get counter == some 0)
    state.inFlight (.inl (List.mem_filter.mpr ⟨counter.mem_all, beq_iff_eq.mpr drains⟩))
  have idle : (state.pass setting queue).inFlight.holds counter = false := by
    unfold State.pass
    dsimp only
    split <;> exact left
  rw [idle] at busy
  cases busy

/-- No threshold of a register that a wait covers is left behind it. -/
theorem not_covers_of_pass {slot : Slot} {entry : Entry}
    (found : (state.pass setting queue).registers.get? slot = some entry)
    (pending : entry.wait.get counter = some bound) :
    (queue.wait.get counter).covers (some bound) = false := by
  unfold State.pass at found
  extract_lets lowered aged at found
  rw [SlotMap.get?_retain] at found
  obtain ⟨middle, _, cleared⟩ := Option.bind_eq_some_iff.mp found
  rw [get_wait_of_clearEntry cleared] at pending
  split at pending
  · cases pending
  · rename_i open'
    rwa [pending, Bool.not_eq_true] at open'

/-- No threshold of a fence that a wait covers is left behind it. -/
theorem not_covers_of_fence_pass {index : Fin storageCount}
    (pending : ((state.pass setting queue).fence index).wait.get counter = some bound) :
    (state.fence index).wait.get counter = some bound ∧
      (queue.wait.get counter).covers (some bound) = false := by
  rw [fence_pass, get_wait_clearFence] at pending
  split at pending
  · cases pending
  · rename_i open'
    rw [pending, Bool.not_eq_true] at open'
    exact ⟨pending, open'⟩

section Requiring

variable {instr other : Instr} {footprint touched : Footprint} {sync : Sync}

/-- Requiring waits puts nothing in flight. -/
theorem inFlight_of_require (busy : after.inFlight.holds counter = true)
    (required : state.require setting queue other touched sync = (after, passed)) :
    state.inFlight.holds counter = true := by
  obtain ⟨_, middle, moved, flatVm, flatLgkm, scalarStore, rfl⟩ := of_require required
  have held : middle.inFlight.has counter.index = true := busy
  rcases moved with rfl | rfl
  · exact held
  · exact has_of_inFlight_pass held

/-- Of fewer events no more are visible. -/
theorem isEmpty_visibleEvents_of_le {target : Target} {scope : Scope} {small large : Events}
    (below : small ≤ large) (hidden : (visibleEvents target scope large).isEmpty = true) :
    (visibleEvents target scope small).isEmpty = true := by
  rw [FlagSet.isEmpty_iff] at hidden ⊢
  intro position
  have flag := hidden position
  unfold visibleEvents at flag ⊢
  dsimp only at flag ⊢
  have flags := below position
  split <;> split <;> simp_all

/-- What is asked for behind some waits was asked for in front of them, for the same cause. -/
theorem Asks.of_require (asks : after.Asks setting instr footprint counter bound)
    (required : state.require setting queue other touched sync = (after, passed)) :
    state.Asks setting instr footprint counter bound := by
  have raised : after.scalarStore = true → state.scalarStore = true := by
    rw [scalarStore_require required, Bool.and_eq_true]
    exact And.left
  have flying {counter : Counter} (busy : after.inFlight.holds counter = true) :
      state.inFlight.holds counter = true := inFlight_of_require busy required
  obtain ⟨_, middle, moved, flatVm, flatLgkm, scalarStore, rfl⟩ := Hazard.of_require required
  have registers {slot : Slot} {entry : Entry} (found : middle.registers.get? slot = some entry)
      {property : Entry → Prop} (kept : Entry.KeptByForgetting setting.generation property) :
      ∃ held, state.registers.get? slot = some held ∧ (property held → property entry) := by
    rcases moved with rfl | rfl
    · exact ⟨entry, found, id⟩
    · exact exists_of_pass kept found
  have held {slot : Slot} {entry : Entry} (found : middle.registers.get? slot = some entry)
      (pending : entry.wait.get counter = some bound) :
      ∃ before, state.registers.get? slot = some before ∧ before.wait.get counter = some bound ∧
        (entry.onRead = true → before.onRead = true) ∧
        (inOrderBehind setting.generation instr entry counter = false →
          inOrderBehind setting.generation instr before counter = false) := by
    obtain ⟨before, there, bounds⟩ :=
      registers found (Entry.unbound_keptByForgetting counter bound)
    obtain ⟨_, again, reads⟩ := registers found Entry.writeOnly_keptByForgetting
    cases there.symm.trans again
    obtain ⟨_, again, orders⟩ := registers found (Entry.inOrder_keptByForgetting instr counter)
    cases there.symm.trans again
    refine ⟨before, there, not_not.mp fun unbound => bounds unbound pending, ?_, ?_⟩
    · intro waits
      by_contra writeOnly
      rw [reads (eq_false_of_ne_true writeOnly)] at waits
      cases waits
    · intro apart
      by_contra inOrder
      rw [orders (fun _ => eq_true_of_ne_false inOrder)
        (by rw [Requirement.isSet, pending]; rfl)] at apart
      cases apart
  have fences {index : Fin storageCount} :
      ((middle.fence index).wait.get counter = some bound →
        (state.fence index).wait.get counter = some bound) ∧
      (middle.fence index).events ≤ (state.fence index).events := by
    rcases moved with rfl | rfl
    · exact ⟨id, le_rfl⟩
    · refine ⟨fun pending => (not_covers_of_fence_pass pending).1, fun position held => ?_⟩
      rw [fence_pass] at held
      exact has_of_events_clearFence held
  cases asks with
  | everything drains busy => exact .everything drains (flying busy)
  | orderedSection erratum leaves chosen =>
      refine .orderedSection erratum leaves ?_
      unfold orderedSectionCounters at chosen ⊢
      rw [Bool.and_eq_true] at chosen ⊢
      exact ⟨flying chosen.1, chosen.2⟩
  | read isRead found waits pending =>
      obtain ⟨before, there, bounds, reads, _⟩ := held found pending
      exact .read isRead there (reads waits) bounds
  | write written found apart pending =>
      obtain ⟨before, there, bounds, _, orders⟩ := held found pending
      exact .write written there (orders apart) bounds
  | scalar settles =>
      refine .scalar (settles.imp_right fun stale => ?_)
      unfold readsStaleScalar at stale ⊢
      simp only [Bool.and_eq_true] at stale ⊢
      obtain ⟨⟨⟨⟨early, scalar⟩, stored⟩, loads⟩, fixed⟩ := stale
      exact ⟨⟨⟨⟨early, scalar⟩, raised stored⟩, loads⟩, fixed⟩
  | orderedCount releases pending => exact .orderedCount releases (fences.1 pending)
  | fence orders wide named visible pending =>
      refine .fence orders wide named ?_ (fences.1 pending)
      cases hidden : (visibleEvents setting.target instr.sync.scope
          (state.fence _).events).isEmpty with
      | false => rfl
      | true =>
          have nothing := isEmpty_visibleEvents_of_le fences.2 hidden
          exact absurd (visible.symm.trans nothing) Bool.false_ne_true

/-- The instruction does not have to wait: nothing asks for a counter in flight. -/
def Ready (setting : Setting) (state : State) (instr : Instr) (footprint : Footprint) : Prop :=
  ∀ counter bound, state.inFlight.holds counter = true →
    ¬ state.Asks setting instr footprint counter bound

/-- An instruction that may pass needs no wait. -/
theorem Ready.wait_needs (ready : state.Ready setting instr footprint) (delay : Delay) :
    (state.needs setting instr footprint instr.sync delay).wait = ∅ := by
  apply Requirement.ext_get
  intro counter
  rw [Requirement.get_empty]
  cases needed : (state.needs setting instr footprint instr.sync delay).wait.get counter with
  | none => rfl
  | some bound =>
      obtain ⟨busy, asks⟩ := asks_of_needs needed
      exact absurd asks (ready counter bound busy)

/-- An instruction that does not have to wait still does not behind the waits of another one. -/
theorem Ready.require (ready : state.Ready setting instr footprint)
    (required : state.require setting queue other touched sync = (after, passed)) :
    after.Ready setting instr footprint :=
  fun counter bound busy asks =>
    ready counter bound (inFlight_of_require busy required) (asks.of_require required)

/-- Unless there is nothing in the queue, the state is moved past it. -/
theorem moves_of_require
    (required : state.require setting queue instr footprint sync = (after, passed)) :
    passed.delay = (state.needs setting instr footprint sync queue.delay).delay ∧
      ∃ middle flatVm flatLgkm scalarStore,
        after = { middle with flatVm, flatLgkm, scalarStore } ∧
          (passed.isEmpty = true ∧ middle = state ∨ middle = state.pass setting passed) := by
  unfold State.require at required
  dsimp only at required
  split at required
  · rename_i empty
    cases required
    exact ⟨rfl, _, _, _, _, rfl, .inl ⟨empty, rfl⟩⟩
  · cases required
    exact ⟨rfl, _, _, _, _, rfl, .inr rfl⟩

/-- Where something is asked for, the state is moved past it. -/
theorem pass_of_require
    (required : state.require setting queue instr footprint sync = (after, passed))
    (asked : passed.wait.get counter = some bound) :
    ∃ middle flatVm flatLgkm scalarStore, middle = state.pass setting passed ∧
      after = { middle with flatVm, flatLgkm, scalarStore } := by
  obtain ⟨_, middle, flatVm, flatLgkm, scalarStore, same, moved⟩ := moves_of_require required
  rcases moved with ⟨empty, _⟩ | moved
  · have unset := List.all_eq_true.mp (Bool.and_eq_true_iff.mp empty).1 counter counter.mem_all
    rw [Requirement.isSet, asked] at unset
    cases unset
  · exact ⟨middle, flatVm, flatLgkm, scalarStore, moved, same⟩

/-- Behind its own waits an instruction does not have to wait: every cause that is left was there
before, and whatever it asks for has been waited for. -/
theorem ready_of_require
    (required : state.require setting queue instr footprint instr.sync = (after, passed)) :
    after.Ready setting instr footprint := by
  intro counter bound busy asks
  obtain ⟨tighter, needed, below⟩ := (asks.of_require required).needed
    (inFlight_of_require busy required) queue.delay
  obtain ⟨least, asked, lower⟩ :=
    ((of_require required).1.trans (entails_combine_right _ _)) counter tighter needed
  obtain ⟨middle, flatVm, flatLgkm, scalarStore, moved, rfl⟩ := pass_of_require required asked
  have covered : (passed.wait.get counter).covers (some bound) = true := by
    rw [asked]
    exact decide_eq_true (lower.trans below)
  have undrained : bound ≠ 0 := by
    rintro rfl
    have remains : middle.inFlight.holds counter = true := busy
    rw [moved] at remains
    refine get_ne_zero_of_inFlight_pass remains ?_
    rw [asked, Nat.le_zero.mp (lower.trans below)]
  have registers {slot : Slot} {entry : Entry} (found : middle.registers.get? slot = some entry)
      (pending : entry.wait.get counter = some bound) : False := by
    rw [moved] at found
    rw [not_covers_of_pass found pending] at covered
    cases covered
  have fences {index : Fin storageCount}
      (pending : (middle.fence index).wait.get counter = some bound) : False := by
    rw [moved] at pending
    rw [(not_covers_of_fence_pass pending).2] at covered
    cases covered
  cases asks with
  | everything _ _ => exact undrained rfl
  | orderedSection _ _ _ => exact undrained rfl
  | read _ found _ pending => exact registers found pending
  | write _ found _ pending => exact registers found pending
  | scalar _ => exact undrained rfl
  | orderedCount _ pending => exact fences pending
  | fence _ _ _ _ pending => exact fences pending

end Requiring

end State

end WaveHazard.Hazard
