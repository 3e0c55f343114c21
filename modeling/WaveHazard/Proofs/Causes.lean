import WaveHazard.Proofs.Bookkeeping
import WaveHazard.Proofs.Needs

/-! # Why an instruction waits

Every threshold that an instruction needs has a cause: a jump that drains everything, the end of an
ordered section, an entry of a register that is read or written, a scalar access, or a fence.
`State.Asks` lists the causes with the thresholds they ask for. The needs of an instruction ask for
what some cause asks for, and for no less than any cause of a counter in flight does.
-/

namespace WaveHazard.Hazard

open Machine Wait

/-- The order an instruction asks for before it is issued: a barrier both, any other one release. -/
def ordersFirst (instr : Instr) : Semantics :=
  if instr.opcode = .pBarrier then Semantics.acquireRelease else Semantics.release

/-- The causes for which an instruction waits on a counter, with the threshold each asks for. -/
inductive State.Asks (setting : Setting) (state : State) (instr : Instr) (footprint : Footprint) :
    Counter → Nat → Prop where
  /-- Everything drains in front of a jump, or where that is forced. -/
  | everything {counter : Counter} :
      instr.opcode = .sSetpcB64 ∨ setting.forceWaits = true →
        state.inFlight.holds counter = true → Asks setting state instr footprint counter 0
  /-- The ordered section is left. -/
  | orderedSection {counter : Counter} : setting.target.errata.overlappedWaves = true →
      leavesOrderedSection setting.generation instr = true →
        state.orderedSectionCounters setting counter = true →
          Asks setting state instr footprint counter 0
  /-- A register that is read has pending producers. -/
  | read {slot : Slot} {entry : Entry} {counter : Counter} {bound : Nat} :
      slot ∈ footprint.reads → state.registers.get? slot = some entry → entry.onRead = true →
        entry.wait.get counter = some bound → Asks setting state instr footprint counter bound
  /-- A register that is written has pending producers with which the write is not in order. -/
  | write {slot : Slot} {entry : Entry} {counter : Counter} {bound : Nat} :
      slot ∈ footprint.writes → state.registers.get? slot = some entry →
        inOrderBehind setting.generation instr entry counter = false →
          entry.wait.get counter = some bound → Asks setting state instr footprint counter bound
  /-- The scalar cache is written back, or may be read too early. -/
  | scalar : instr.opcode = .sDcacheWb ∨ state.readsStaleScalar setting instr = true →
      Asks setting state instr footprint .lgkm 0
  /-- An ordered count releases what global data share has accessed. -/
  | orderedCount {counter : Counter} {bound : Nat} : orderedCountReleases? instr = some true →
      (state.fence Storage.gdsIndex).wait.get counter = some bound →
        Asks setting state instr footprint counter bound
  /-- The memory the instruction orders has been accessed. -/
  | fence {index : Fin storageCount} {counter : Counter} {bound : Nat} :
      instr.sync.semantics.intersects (ordersFirst instr) = true →
        ¬ instr.sync.scope ≤ State.waveScope setting.target →
          instr.sync.storage.has index = true →
            (State.visibleEvents setting.target instr.sync.scope
              (state.fence index).events).isEmpty = false →
              (state.fence index).wait.get counter = some bound →
                Asks setting state instr footprint counter bound

/-- A threshold of two requirements together is one of either. -/
theorem get_combine_eq_some {left right : Requirement} {counter : Counter} {bound : Nat}
    (asked : (left.combine right).get counter = some bound) :
    left.get counter = some bound ∨ right.get counter = some bound := by
  rw [Requirement.get_combine] at asked
  cases mine : left.get counter with
  | none => exact .inr (by rw [mine] at asked; exact asked)
  | some first =>
      cases theirs : right.get counter with
      | none => exact .inl (by rw [mine, theirs] at asked; exact asked)
      | some second =>
          rw [mine, theirs] at asked
          have least : min first second = bound := Option.some.inj asked
          rcases Nat.le_total first second with below | below
          · exact .inl (by rw [← least, Nat.min_eq_left below])
          · exact .inr (by rw [← least, Nat.min_eq_right below])

/-- A threshold that a step has not added was there before, and so it is with many steps. -/
theorem cause_of_foldl {α β : Type} (waitOf : β → Requirement) (cause : α → Prop)
    {add : β → α → β} {counter : Counter} {bound : Nat}
    (adds : ∀ held item, (waitOf (add held item)).get counter = some bound →
      (waitOf held).get counter = some bound ∨ cause item) {items : List α} {held : β}
    (asked : (waitOf (items.foldl add held)).get counter = some bound) :
    (waitOf held).get counter = some bound ∨ ∃ item ∈ items, cause item := by
  induction items generalizing held with
  | nil => exact .inl asked
  | cons first rest ih =>
      rcases ih asked with before | ⟨item, member, caused⟩
      · exact (adds held first before).imp_right fun caused => ⟨first, List.mem_cons_self, caused⟩
      · exact .inr ⟨item, List.mem_cons_of_mem _ member, caused⟩

namespace State

variable {setting : Setting} {state : State} {instr : Instr} {footprint : Footprint}
  {counter : Counter} {bound : Nat}

/-- What the registers of an instruction add to a queue has a cause. -/
theorem asks_of_registerHazards {queue : Queue}
    (asked : (state.registerHazards setting instr footprint queue).wait.get counter = some bound) :
    queue.wait.get counter = some bound ∨ state.Asks setting instr footprint counter bound := by
  rw [registerHazards_eq] at asked
  have writing := cause_of_foldl Queue.wait (fun slot => ∃ entry,
    state.registers.get? slot = some entry ∧
      inOrderBehind setting.generation instr entry counter = false ∧
        entry.wait.get counter = some bound) (fun held slot added => by
      unfold slotHazard at added
      split at added
      · exact .inl added
      · rename_i entry found
        refine (get_combine_eq_some added).imp_right fun new => ?_
        rw [Requirement.get_only] at new
        split at new
        · rename_i apart
          exact ⟨entry, found, (Bool.not_eq_true' _).mp apart, new⟩
        · cases new) asked
  rcases writing with before | ⟨slot, written, entry, found, apart, pending⟩
  · have reading := cause_of_foldl Queue.wait (fun slot => ∃ entry,
      state.registers.get? slot = some entry ∧ entry.onRead = true ∧
        entry.wait.get counter = some bound) (fun held slot added => by
        unfold slotHazard at added
        split at added
        · exact .inl added
        · rename_i entry found
          unfold readHazard at added
          split at added
          · rename_i waits
            exact (get_combine_eq_some added).imp_right fun new => ⟨entry, found, waits, new⟩
          · exact .inl added) before
    refine reading.imp_right ?_
    rintro ⟨slot, isRead, entry, found, waits, pending⟩
    exact .read isRead found waits pending
  · exact .inr (.write written found apart pending)

/-- What a synchronization adds to a requirement is the threshold of a fence it waits for. -/
theorem cause_of_fenceWait {wait : Requirement} {sync : Sync} {semantics : Semantics}
    (asked : (state.fenceWait setting wait sync semantics).get counter = some bound) :
    wait.get counter = some bound ∨ sync.semantics.intersects semantics = true ∧
      ¬ sync.scope ≤ waveScope setting.target ∧
        ∃ index : Fin storageCount, sync.storage.has index = true ∧
          (visibleEvents setting.target sync.scope (state.fence index).events).isEmpty = false ∧
            (state.fence index).wait.get counter = some bound := by
  rw [fenceWait_eq] at asked
  split at asked
  · exact .inl asked
  · rename_i applies
    rw [Bool.or_eq_true, not_or, Bool.not_eq_true', Bool.not_eq_false, decide_eq_true_eq]
      at applies
    have added := cause_of_foldl id (fun index : Fin storageCount =>
      (visibleEvents setting.target sync.scope (state.fence index).events).isEmpty = false ∧
        (state.fence index).wait.get counter = some bound) (fun held index added => by
        unfold fenceHazard at added
        dsimp only [id] at added
        split at added
        · exact .inl added
        · rename_i visible
          exact (get_combine_eq_some added).imp_right fun new =>
            ⟨eq_false_of_ne_true visible, new⟩) asked
    refine added.imp_right ?_
    rintro ⟨index, listed, visible, pending⟩
    exact ⟨applies.1, applies.2, index, (List.mem_filter.mp listed).2, visible, pending⟩

/-- Every threshold an instruction needs is for a counter in flight, and has a cause. -/
theorem asks_of_needs {delay : Delay}
    (needed : (state.needs setting instr footprint instr.sync delay).wait.get counter =
      some bound) :
    state.inFlight.holds counter = true ∧ state.Asks setting instr footprint counter bound := by
  unfold needs at needed
  extract_lets drained first hazards late scalar ordered fenced at needed
  change (fenced.only state.inFlight.holds).get counter = some bound at needed
  rw [Requirement.get_only] at needed
  split at needed
  case isFalse => cases needed
  rename_i busy
  refine ⟨busy, ?_⟩
  -- From the last step back to the first, what was not there before has the cause of the step.
  have fences : ordered.get counter = some bound ∨
      state.Asks setting instr footprint counter bound := by
    change (if _ then _ else _ : Requirement).get counter = some bound at needed
    have orders : ordersFirst instr = if instr.opcode = .pBarrier then Semantics.acquireRelease
      else Semantics.release := rfl
    split at needed
    all_goals
      rename_i barrier
      refine (cause_of_fenceWait needed).imp_right ?_
      rintro ⟨intersects, wide, index, named, visible, pending⟩
      refine .fence ?_ wide named visible pending
      rw [orders]
    · rwa [if_pos barrier]
    · rwa [if_neg barrier]
  rcases fences with asked | asks
  case inr => exact asks
  have counts : scalar.get counter = some bound ∨
      state.Asks setting instr footprint counter bound := by
    change (if _ then _ else _ : Requirement).get counter = some bound at asked
    split at asked
    · rename_i releases
      exact (get_combine_eq_some asked).imp_right fun pending => .orderedCount releases pending
    · exact .inl asked
  rcases counts with asked | asks
  case inr => exact asks
  have caches : late.get counter = some bound ∨
      state.Asks setting instr footprint counter bound := by
    change (if _ then _ else _ : Requirement).get counter = some bound at asked
    split at asked
    · rename_i settles
      rw [Requirement.get_set] at asked
      split at asked
      · rename_i same
        cases asked
        exact .inr (same ▸ .scalar (by simpa using settles))
      · exact .inl asked
    · exact .inl asked
  rcases caches with asked | asks
  case inr => exact asks
  rcases asks_of_registerHazards asked with asked | asks
  case inr => exact asks
  have sections : drained.get counter = some bound ∨
      state.Asks setting instr footprint counter bound := by
    change (if _ then _ else _ : Requirement).get counter = some bound at asked
    split at asked
    · rename_i leaves
      rw [Bool.and_eq_true] at leaves
      rw [Requirement.get_drain] at asked
      split at asked
      · rename_i chosen
        cases asked
        exact .inr (.orderedSection leaves.1 leaves.2 chosen)
      · exact .inl asked
    · exact .inl asked
  rcases sections with asked | asks
  case inr => exact asks
  change (if _ then _ else _ : Requirement).get counter = some bound at asked
  split at asked
  · rename_i drains
    unfold drainAll at asked
    rw [Requirement.get_drain, if_pos busy] at asked
    cases asked
    exact .everything drains busy
  · rw [Requirement.get_empty] at asked
    cases asked

/-- An ordered count that releases needs the fence of global data share. -/
theorem needs_entailsAt_orderedCount (busy : state.inFlight.holds counter = true)
    (releases : orderedCountReleases? instr = some true) (sync : Sync) (delay : Delay) :
    EntailsAt counter (state.needs setting instr footprint sync delay).wait
      (state.fence Storage.gdsIndex).wait := by
  unfold needs
  extract_lets drained first hazards late scalar ordered fenced
  have fences : Entails fenced ordered := by
    change Entails (if _ then _ else _) _
    split <;> exact state.entails_fenceWait setting _ _ _
  have counts : ordered = scalar.combine (state.fence Storage.gdsIndex).wait := if_pos releases
  refine (state.entailsAt_dropIdle _ busy).trans ((fences.at counter).trans ?_)
  rw [counts]
  exact (entails_combine_right _ _).at counter

/-- The needs of an instruction ask for no less than any cause does, on counters in flight. -/
theorem Asks.needed (asks : state.Asks setting instr footprint counter bound)
    (busy : state.inFlight.holds counter = true) (delay : Delay) :
    ∃ tighter, (state.needs setting instr footprint instr.sync delay).wait.get counter =
      some tighter ∧ tighter ≤ bound := by
  cases asks with
  | everything drains _ =>
      refine ⟨0, get_needs_of_starts busy (fun _ start => start.everything drains) ?_ _ _ _,
        le_rfl⟩
      unfold drainAll
      rw [Requirement.get_drain, if_pos busy]
  | orderedSection erratum leaves chosen =>
      refine ⟨0, get_needs_of_starts busy
        (fun _ start => start.orderedSection erratum leaves) ?_ _ _ _, le_rfl⟩
      rw [Requirement.get_drain, if_pos chosen]
  | read isRead found waits pending =>
      exact entailsAt_needs busy (fun queue => state.entailsAt_of_read setting isRead found waits
        counter instr queue) instr.sync delay bound pending
  | write written found apart pending =>
      exact entailsAt_needs busy (fun queue => state.entailsAt_of_write setting written found apart
        queue) instr.sync delay bound pending
  | scalar settles => exact needs_entailsAt_scalar busy settles footprint instr.sync delay 0 rfl
  | orderedCount releases pending =>
      exact needs_entailsAt_orderedCount busy releases instr.sync delay bound pending
  | fence orders wide named visible pending =>
      exact needs_entailsAt_fence busy orders wide named visible footprint delay bound pending

end State

end WaveHazard.Hazard
