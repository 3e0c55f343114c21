import Mathlib.Tactic.IntervalCases
import WaveHazard.Proofs.ClauseMembers
import WaveHazard.Proofs.RegisterView

/-! # Accesses that do not hinder each other

By the turn of a member of a clause the earlier members have been issued. What these have set in
motion does not make it wait: it uses none of their results, the pending producers of its own
registers only grow older, and no register gets a threshold on a counter it was not pending on.

`State.Unhindered` is the part of not having to wait that the members of a clause keep for each
other.
-/

namespace WaveHazard.Hazard

open Machine Wait Index

variable {generation : Generation} {setting : Setting}

/-- A set without wait counters and arithmetic pipelines is empty. -/
theorem Counters.isEmpty_of_none {counters : Counters}
    (idle : ∀ counter, counters.holds counter = false) (quiet : counters.hasArithmetic = false) :
    counters.isEmpty = true := by
  rw [FlagSet.isEmpty_iff]
  intro position
  by_cases inside : position < 8
  · interval_cases position
    · exact idle .exp
    · exact idle .lgkm
    · exact idle .vm
    · exact idle .vs
    · exact idle .sample
    · exact idle .bvh
    · exact idle .km
    · exact quiet
  · exact counters.has_of_width_le (Nat.le_of_not_lt inside)

namespace Entry

variable {property other : Entry → Prop} {entry : Entry}

/-- Two lasting properties last together. -/
theorem Lasting.and (first : Lasting generation property) (second : Lasting generation other) :
    Lasting generation fun entry => property entry ∧ other entry where
  forgetting :=
    { delay := fun keeps both =>
        ⟨first.forgetting.delay keeps both.1, second.forgetting.delay keeps both.2⟩
      dropArithmetic := fun both =>
        ⟨first.forgetting.dropArithmetic both.1, second.forgetting.dropArithmetic both.2⟩
      dropCounter := fun counter both =>
        ⟨first.forgetting.dropCounter counter both.1,
          second.forgetting.dropCounter counter both.2⟩ }
  join mine theirs := ⟨first.join mine.1 theirs.1, second.join mine.2 theirs.2⟩
  age event counters both := ⟨first.age event counters both.1, second.age event counters both.2⟩
  drain both pending := ⟨first.drain both.1 pending, second.drain both.2 pending⟩
  fresh logical onRead loads cycles issued :=
    ⟨first.fresh logical onRead loads cycles issued,
      second.fresh logical onRead loads cycles issued⟩

/-- There is a threshold for every counter the entry is pending on. -/
def Bounded (entry : Entry) : Prop :=
  ∀ counter, entry.counters.holds counter = true → entry.wait.isSet counter = true

/-- That every pending counter has a threshold is lasting. -/
theorem lasting_bounded : Lasting generation Bounded where
  forgetting :=
    { delay := fun _ bounded => bounded
      dropArithmetic := fun {entry} bounded counter held => by
        change Counters.holds (entry.counters.diff Counters.alu) counter = true at held
        rw [Counters.holds_diff, Bool.and_eq_true] at held
        exact bounded counter held.1
      dropCounter := fun {entry} dropped bounded counter held => by
        change Counters.holds (entry.counters.diff (Counters.single dropped)) counter = true at held
        change ((entry.wait.set dropped none).get counter).isSome = true
        rw [Counters.holds_diff, Counters.holds_single, Bool.and_eq_true, Bool.not_eq_true',
          decide_eq_false_iff_not] at held
        rw [Requirement.get_set, if_neg (Ne.symm held.2)]
        exact bounded counter held.1 }
  join {held new} first second counter pending := by
    change Counters.holds (held.counters ||| new.counters) counter = true at pending
    change (held.wait.combine new.wait).isSet counter = true
    rw [Counters.holds_or, Bool.or_eq_true] at pending
    rw [Requirement.isSet_combine, Bool.or_eq_true]
    exact pending.imp (first counter) (second counter)
  age {entry} event counters bounded counter held := by
    unfold Entry.age at held ⊢
    split at held
    · rename_i unordered
      rw [if_pos unordered]
      exact bounded counter held
    · rename_i ordered
      rw [if_neg ordered]
      change ((ageRequirement ..).get counter).isSome = true
      rw [ageRequirement, Requirement.get_ofFn]
      split
      · cases entry.wait.get counter <;> rfl
      · exact bounded counter held
  drain {entry chosen} bounded _ counter held := by
    change ((entry.wait.drain chosen).get counter).isSome = true
    rw [Requirement.get_drain]
    split
    · rfl
    · exact bounded counter held
  fresh {event} _ _ _ _ _ counter held := by
    change (generation.countersOf event).holds counter = true at held
    change ((Requirement.drain ∅ (generation.countersOf event).holds).get counter).isSome = true
    rw [Requirement.get_drain, if_pos held]
    rfl

/-- The events of the entry are pending on their counters, and every counter it is pending on has a
threshold. Of a flat access only one counter may be left. -/
def Accounted (generation : Generation) (entry : Entry) : Prop :=
  (entry.Grounded generation True ∧ entry.AwaitsFlat) ∧ entry.Bounded

/-- That events are pending on their counters, and counters have thresholds, is lasting. -/
theorem lasting_accounted : Lasting generation (Accounted generation) :=
  (lasting_grounded.and lasting_awaitsFlat).and lasting_bounded

/-- One more operation gives no new threshold to an entry, but for a flat access behind another one
that is still pending. -/
theorem Accounted.isSet_of_age (accounted : entry.Accounted generation) {event : Event}
    {counters : Counters} {counter : Counter}
    (set : (entry.age generation event counters).wait.isSet counter = true) :
    entry.wait.isSet counter = true ∨
      event = .flat ∧ ∃ other, entry.wait.isSet other = true := by
  obtain ⟨⟨grounded, awaits⟩, bounded⟩ := accounted
  unfold Entry.age at set
  split at set
  · exact .inl set
  · change ((ageRequirement ..).get counter).isSome = true at set
    rw [ageRequirement, Requirement.get_ofFn] at set
    split at set
    · rename_i aged
      rw [Bool.and_eq_true, beq_iff_eq] at aged
      have held : Events.holds (entry.events &&& generation.counted counter) event = true := by
        simp [aged.2]
      rw [Events.holds_and, Bool.and_eq_true] at held
      rcases grounded.counted event counter held.1 held.2 with rfl | pending
      · right
        refine ⟨rfl, ?_⟩
        rcases awaits held.1 with onLoads | onShares
        · exact ⟨.vm, bounded .vm onLoads⟩
        · exact ⟨.lgkm, bounded .lgkm onShares⟩
      · exact .inl (bounded counter pending)
    · exact .inl set

end Entry

/-- Nothing is in order behind a flat access, so a flat access waits for whatever it overwrites. -/
theorem inOrderBehind_of_flat {instr : Instr} (flat : instr.encoding = .flat) (entry : Entry)
    (counter : Counter) : State.inOrderBehind generation instr entry counter = false := by
  have other : instr.opcode ≠ .imageBvh64IntersectRay := by
    intro same
    rw [Instr.encoding, same] at flat
    cases flat
  have kindless : loadKind instr = ∅ := by
    unfold loadKind Instr.isImage Instr.isVectorMemory
    rw [if_neg other, flat]
    rfl
  have local' : instr.isDataShare = false := by
    rw [Instr.isDataShare, flat]
    rfl
  unfold State.inOrderBehind
  rw [kindless, local']
  rfl

namespace Effect

variable {instr : Instr} {footprint : Footprint} {effects : List Effect}

/-- What the effects of an access are like: it is a flat one if a flat access is counted, scalar
memory counts nothing else, registers that it writes get a new producer, and those that it reads
only on GFX6, where writes to them have to wait. -/
def OfAccess (generation : Generation) (instr : Instr) (footprint : Footprint) : Effect → Prop
  | .count event _ => (event = .flat → instr.encoding = .flat) ∧
      (instr.encoding = .smem → event = .smem)
  | .flatLoad _ => instr.encoding = .flat
  | .track slots entry => (∀ slot ∈ slots, slot ∈ footprint.writes) ∨
      generation = .gfx6 ∧ entry.onRead = false ∧ ∀ slot ∈ slots, slot ∈ footprint.reads
  | .scalarStore => instr.definitions.isEmpty = true

/-- The data of a store is one of its operands. -/
theorem mem_operands_of_storeData? {operand : Operand} (data : storeData? instr = some operand) :
    operand ∈ instr.operands := by
  unfold storeData? at data
  split at data
  · exact List.mem_of_getElem? (Option.filter_eq_some_iff.mp data).1
  · split at data
    · exact List.mem_of_getElem? data
    · cases data

section Reading

variable (touches : instr.footprint = .ok footprint)

include touches

/-- A footprint has all slots of the operands and the definitions. -/
theorem footprint_eq_resolved :
    footprint = { reads := resolved instr.reads, writes := resolved instr.writes } := by
  obtain ⟨reads, read, touches⟩ := Outcome.bind_eq_ok.mp touches
  obtain ⟨writes, written, touches⟩ := Outcome.bind_eq_ok.mp touches
  cases touches
  rw [resolved_of_sequenceSlots read, resolved_of_sequenceSlots written]

/-- What an access defines is a register that it writes. -/
theorem ofAccess_of_define {definition : Definition} (listed : definition ∈ instr.definitions)
    {event : Event} {loads : LoadKind} {cycles : Int} {effect : Effect}
    (defined : define generation definition event loads cycles = .ok effect) :
    effect.OfAccess generation instr footprint := by
  obtain ⟨slots, inside, done⟩ := Outcome.bind_eq_ok.mp defined
  cases done
  left
  intro slot member
  rw [footprint_eq_resolved touches, Instr.writes, resolved_flatMap]
  rw [← resolved_of_sequenceSlots inside] at member
  exact List.mem_flatMap.mpr ⟨definition, listed, member⟩

/-- The first definition of an access is a register that it writes. -/
theorem ofAccess_of_defineFirst {event : Event} {loads : LoadKind}
    (defined : defineFirst generation instr event loads = .ok effects) :
    ∀ effect ∈ effects, effect.OfAccess generation instr footprint := by
  unfold defineFirst at defined
  split at defined
  · cases defined
    exact fun _ member => absurd member List.not_mem_nil
  · rename_i definition others listed
    obtain ⟨effect, tracked, done⟩ := Outcome.bind_eq_ok.mp defined
    cases done
    have first : definition ∈ instr.definitions := listed ▸ List.mem_cons_self
    exact List.forall_mem_singleton.mpr (ofAccess_of_define touches first tracked)

/-- What a store reads late are registers that it reads. -/
theorem ofAccess_of_lateLock (other : instr.encoding ≠ .smem)
    (read : lateLock generation instr = .ok effects) :
    ∀ effect ∈ effects, effect.OfAccess generation instr footprint := by
  unfold lateLock at read
  split at read
  · rename_i operand data
    obtain ⟨locks, locked, done⟩ := Outcome.bind_eq_ok.mp read
    cases done
    split at data
    · rename_i early
      refine List.forall_mem_cons.mpr ⟨⟨nofun, fun scalar => absurd scalar other⟩, ?_⟩
      have listed := mem_operands_of_storeData? data
      unfold lock at locked
      split at locked
      · rename_i register cls
        obtain ⟨effect, tracked, done⟩ := Outcome.bind_eq_ok.mp locked
        cases done
        obtain ⟨slots, inside, done⟩ := Outcome.bind_eq_ok.mp tracked
        cases done
        refine List.forall_mem_singleton.mpr (.inr ⟨early, rfl, fun slot member => ?_⟩)
        rw [footprint_eq_resolved touches, Instr.reads, resolved_flatMap]
        rw [← resolved_of_sequenceSlots inside] at member
        exact List.mem_flatMap.mpr ⟨_, listed, member⟩
      · cases locked
        exact fun _ member => absurd member List.not_mem_nil
    · cases data
  · cases read
    exact fun _ member => absurd member List.not_mem_nil

/-- The asynchronous effects of an access to memory other than global data share. -/
theorem ofAccess_of_ofInstr (access : isAccess instr.encoding = true)
    (local' : instr.isGlobalDataShare = false) (read : ofInstr generation instr = .ok effects) :
    ∀ effect ∈ effects, effect.OfAccess generation instr footprint := by
  have vector (other : instr.encoding ≠ .smem)
      (read : ofVectorMemory generation instr = .ok effects) :
      ∀ effect ∈ effects, effect.OfAccess generation instr footprint := by
    obtain ⟨result, defined, read⟩ := Outcome.bind_eq_ok.mp read
    obtain ⟨late, locked, done⟩ := Outcome.bind_eq_ok.mp read
    cases done
    refine List.forall_mem_cons.mpr ⟨⟨fun flat => ?_, fun scalar => absurd scalar other⟩, ?_⟩
    · exact absurd flat (loadEvent_ne_flat instr _)
    · exact List.forall_mem_append.mpr
        ⟨ofAccess_of_defineFirst touches defined, ofAccess_of_lateLock touches other locked⟩
  unfold ofInstr at read
  cases encoding : instr.encoding with
  | flat =>
      rw [encoding] at read
      obtain ⟨result, defined, done⟩ := Outcome.bind_eq_ok.mp read
      cases done
      refine List.forall_mem_cons.mpr ⟨?_, ofAccess_of_defineFirst touches defined⟩
      by_cases loads : generation < .gfx10 ∧ (!instr.definitions.isEmpty) = true
      · rw [if_pos loads]
        exact encoding
      · rw [if_neg loads]
        exact ⟨fun _ => encoding, fun scalar => absurd (encoding.symm.trans scalar) nofun⟩
  | smem =>
      rw [encoding] at read
      obtain ⟨result, defined, done⟩ := Outcome.bind_eq_ok.mp read
      cases done
      refine List.forall_mem_cons.mpr ⟨⟨nofun, fun _ => rfl⟩, List.forall_mem_append.mpr
        ⟨ofAccess_of_defineFirst touches defined, ?_⟩⟩
      split
      · rename_i stores
        exact List.forall_mem_singleton.mpr stores.1
      · exact fun _ member => absurd member List.not_mem_nil
  | ds =>
      rw [encoding] at read
      unfold ofDataShare at read
      rw [if_neg (by simp [local'])] at read
      obtain ⟨result, defined, done⟩ := Outcome.bind_eq_ok.mp read
      cases done
      exact List.forall_mem_cons.mpr
        ⟨⟨nofun, fun scalar => absurd (encoding.symm.trans scalar) nofun⟩,
          ofAccess_of_defineFirst touches defined⟩
  | ldsdir =>
      rw [encoding] at read
      change ofDirectLoad generation instr = .ok effects at read
      unfold ofDirectLoad at read
      split at read
      · cases read
      · obtain ⟨result, defined, done⟩ := Outcome.bind_eq_ok.mp read
        cases done
        exact List.forall_mem_cons.mpr
          ⟨⟨nofun, fun scalar => absurd (encoding.symm.trans scalar) nofun⟩,
            ofAccess_of_defineFirst touches defined⟩
  | mubuf | mtbuf | mimg | global | scratch =>
      rw [encoding] at read
      exact vector (by rw [encoding]; exact nofun) read
  | _ =>
      rw [encoding] at access
      cases access

/-- Arithmetic results concern the registers an instruction writes. -/
theorem ofAccess_of_arithmetic {latency : Int}
    (read : arithmetic generation instr latency = .ok effects) :
    ∀ effect ∈ effects, effect.OfAccess generation instr footprint := by
  intro effect member
  unfold arithmetic at read
  split at read
  · cases read
    cases member
  · obtain ⟨definition, listed, defined⟩ := Outcome.mem_of_mapM_eq_ok read member
    exact ofAccess_of_define touches listed defined

end Reading

/-- Effects that let registers wait do not raise the flag of scalar stores. -/
theorem not_raised_of_lock {operand : Operand} {event : Event} {loads : LoadKind}
    (locked : lock generation operand event loads = .ok effects) : scalarStore ∉ effects := by
  unfold lock at locked
  split at locked
  · obtain ⟨effect, tracked, done⟩ := Outcome.bind_eq_ok.mp locked
    obtain ⟨slots, _, same⟩ := Outcome.bind_eq_ok.mp tracked
    cases done
    cases same
    simp
  · cases locked
    simp

/-- Tracking a definition is no scalar store. -/
theorem not_raised_of_defineFirst {event : Event} {loads : LoadKind}
    (defined : defineFirst generation instr event loads = .ok effects) : scalarStore ∉ effects := by
  unfold defineFirst at defined
  split at defined
  · cases defined
    simp
  · obtain ⟨effect, tracked, done⟩ := Outcome.bind_eq_ok.mp defined
    obtain ⟨slots, _, same⟩ := Outcome.bind_eq_ok.mp tracked
    cases done
    cases same
    simp

/-- Locking operands is no scalar store. -/
theorem not_raised_of_locks {α : Type} {items : List α} {lockItem : α → Except Fault (List Effect)}
    {locks : List (List Effect)} (locked : items.mapM lockItem = .ok locks)
    (each : ∀ item effects, lockItem item = .ok effects → scalarStore ∉ effects) :
    scalarStore ∉ locks.flatten := by
  intro raised
  obtain ⟨effects, listed, member⟩ := List.mem_flatten.mp raised
  obtain ⟨item, _, done⟩ := Outcome.mem_of_mapM_eq_ok locked listed
  exact each item effects done member

/-- Only scalar memory raises the flag of scalar stores, and it counts its operation first. -/
theorem counts_of_scalarStore_mem (read : ofInstr generation instr = .ok effects)
    (raised : scalarStore ∈ effects) : ∃ sync rest, effects = .count .smem sync :: rest := by
  unfold ofInstr at read
  split at read
  case h_3 =>
    obtain ⟨result, _, done⟩ := Outcome.bind_eq_ok.mp read
    cases done
    exact ⟨_, _, rfl⟩
  case h_1 =>
    unfold ofExport at read
    split at read
    · obtain ⟨locks, locked, read⟩ := Outcome.bind_eq_ok.mp read
      obtain ⟨lanes, masked, done⟩ := Outcome.bind_eq_ok.mp read
      cases done
      simp [not_raised_of_lock masked, not_raised_of_locks locked (fun position effects done => by
        split at done
        · exact not_raised_of_lock done
        · cases done)] at raised
    · cases read
  case h_2 =>
    obtain ⟨result, defined, done⟩ := Outcome.bind_eq_ok.mp read
    cases done
    split at raised <;> simp [not_raised_of_defineFirst defined] at raised
  case h_4 =>
    unfold ofDataShare at read
    split at read
    · obtain ⟨result, defined, read⟩ := Outcome.bind_eq_ok.mp read
      obtain ⟨locks, locked, done⟩ := Outcome.bind_eq_ok.mp read
      cases done
      simp [not_raised_of_defineFirst defined,
        not_raised_of_locks locked (fun _ _ => not_raised_of_lock)] at raised
    · obtain ⟨result, defined, done⟩ := Outcome.bind_eq_ok.mp read
      cases done
      simp [not_raised_of_defineFirst defined] at raised
  case h_5 =>
    unfold ofDirectLoad at read
    split at read
    · cases read
    · obtain ⟨result, defined, done⟩ := Outcome.bind_eq_ok.mp read
      cases done
      simp [not_raised_of_defineFirst defined] at raised
  case h_6 | h_7 | h_8 | h_9 | h_10 =>
    obtain ⟨result, defined, read⟩ := Outcome.bind_eq_ok.mp read
    obtain ⟨late, locked, done⟩ := Outcome.bind_eq_ok.mp read
    cases done
    have silent : scalarStore ∉ late := by
      unfold lateLock at locked
      split at locked
      · obtain ⟨locks, held, done⟩ := Outcome.bind_eq_ok.mp locked
        cases done
        simp [not_raised_of_lock held]
      · cases locked
        simp
    simp [not_raised_of_defineFirst defined, silent] at raised
  case h_11 =>
    split at read <;> cases read <;> simp at raised
  case h_12 =>
    split at read
    · unfold ofMessageReply at read
      split at read
      · cases read
      · obtain ⟨result, defined, done⟩ := Outcome.bind_eq_ok.mp read
        cases done
        simp [not_raised_of_defineFirst defined] at raised
    · cases read
      simp at raised
  case h_13 =>
    cases read
    simp at raised

end Effect

namespace State

variable {target : Target} {state after other : State} {instr fellow : Instr}
  {footprint touched : Footprint} {effects : List Effect}

section ScalarStores

/-- An effect raises the flag of scalar stores only if it is one. -/
theorem raised_of_applyAll (raised : (state.applyAll generation effects).scalarStore = true) :
    state.scalarStore = true ∨ Effect.scalarStore ∈ effects := by
  induction effects generalizing state with
  | nil => exact .inl raised
  | cons effect rest ih =>
      rcases ih raised with held | later
      · cases effect with
        | count event sync =>
            left
            change (state.count generation event sync).scalarStore = true at held
            unfold State.count at held
            dsimp only at held
            split at held <;> exact held
        | flatLoad sync => exact .inl held
        | track slots entry => exact .inl held
        | scalarStore => exact .inr List.mem_cons_self
      · exact .inr (List.mem_cons_of_mem _ later)

/-- While the flag of scalar stores is raised, their counter is in flight. From GFX12 on it is
another one than that of data share. -/
theorem busy_of_scalarStore (occurs : Occurs target state) (raised : state.scalarStore = true) :
    .gfx12 ≤ target.generation ∨ state.inFlight.holds .lgkm = true := by
  induction occurs with
  | empty => cases raised
  | @issue before after instr _ issued ih =>
      obtain ⟨effects, read, rfl⟩ := Outcome.map_eq_ok.mp issued
      rcases raised_of_applyAll raised with held | stores
      · exact (ih held).imp_right fun busy => holds_inFlight_applyAll busy effects
      · obtain ⟨sync, rest, rfl⟩ := Effect.counts_of_scalarStore_mem read stores
        rw [or_iff_not_imp_left]
        intro early
        have busy : (before.count target.generation .smem sync).inFlight.holds .lgkm = true := by
          rw [inFlight_count, Counters.holds_or, Generation.holds_countersOf]
          simp [Generation.counted, early]
        exact holds_inFlight_applyAll busy rest
  | issueArithmetic _ _ issued ih =>
      obtain ⟨effects, read, done⟩ := Outcome.bind_eq_ok.mp issued
      cases done
      rw [scalarStore_ageArithmetic] at raised
      rw [inFlight_ageArithmetic]
      rcases raised_of_applyAll raised with held | stores
      · exact (ih held).imp_right fun busy => holds_inFlight_applyAll busy effects
      · obtain ⟨_, _, _, _, _, same, _⟩ := Effect.tracks_of_arithmetic read _ stores
        cases same
  | @demand setting before after queue passed instr sync same _ _ demanded ih =>
      obtain ⟨footprint, _, done⟩ := Outcome.bind_eq_ok.mp demanded
      have required := Except.ok.inj done
      rw [scalarStore_require required, Bool.and_eq_true, Bool.not_eq_true'] at raised
      refine (ih raised.1).imp_right fun busy => holds_inFlight_require busy required ?_
      exact beq_eq_false_iff_ne.mp raised.2
  | atEntry _ seeded ih =>
      refine Outcome.foldlM_keeps (fun state => state.scalarStore = true →
        .gfx12 ≤ target.generation ∨ state.inFlight.holds .lgkm = true) seeded ?_ ?_ raised
      · split <;> exact ih
      · intro definition _ before next kept stepped raised
        obtain ⟨effect, defined, done⟩ := Outcome.bind_eq_ok.mp stepped
        obtain ⟨slots, _, same⟩ := Outcome.bind_eq_ok.mp defined
        cases done
        cases same
        have raised : (before.applyAll target.generation
          [.count .vmem {}, .track slots _]).scalarStore = true := raised
        have held := (raised_of_applyAll raised).resolve_right (by simp)
        exact (kept held).imp_right fun busy => holds_inFlight_applyAll busy [.count .vmem {}]
  | join logical _ _ mine theirs =>
      change (_ || _) = true at raised
      rw [Bool.or_eq_true] at raised
      change _ ∨ Counters.holds (_ ||| _) .lgkm = true
      rw [Counters.holds_or, Bool.or_eq_true]
      rcases raised with left | right
      · exact (mine left).imp_right .inl
      · exact (theirs right).imp_right .inr

end ScalarStores

/-- What keeps an access from waiting, as far as its registers and the scalar cache are concerned:
registers that it reads have no thresholds, or only for those that write them, registers that it
writes have only those it stays in order with, and a scalar store before it has completed. -/
structure Unhindered (setting : Setting) (state : State) (instr : Instr) (footprint : Footprint) :
    Prop where
  reads : ∀ slot ∈ footprint.reads, ∀ entry, state.registers.get? slot = some entry →
    entry.onRead = false ∨
      setting.generation ≠ .gfx6 ∧ ∀ counter, entry.wait.isSet counter = false
  writes : ∀ slot ∈ footprint.writes, ∀ entry, state.registers.get? slot = some entry →
    ∀ counter, entry.wait.isSet counter = true →
      inOrderBehind setting.generation instr entry counter = true
  scalar : state.readsStaleScalar setting instr = true →
    .gfx12 ≤ setting.generation ∧ state.inFlight.holds .lgkm = false

/-- Who does not have to wait is unhindered. -/
theorem Ready.unhindered (ready : state.Ready setting instr footprint)
    (occurs : Occurs setting.target state) : state.Unhindered setting instr footprint where
  reads := by
    intro slot isRead entry found
    have kept := (tracked_of_occurs occurs).registers slot entry found
    rw [or_iff_not_imp_left, Bool.not_eq_false]
    intro waits
    have unset (counter : Counter) : entry.wait.isSet counter = false := by
      by_contra set
      obtain ⟨bound, pending⟩ := Option.isSome_iff_exists.mp (eq_true_of_ne_false set)
      exact ready counter bound (kept.wait counter bound pending).2
        (.read isRead found waits pending)
    refine ⟨fun earliest => ?_, unset⟩
    -- Before GFX11 an entry is pending on a counter, and then it has a threshold.
    have quiet := every_of_occurs Entry.lasting_unarithmetic occurs slot entry found
    have uncounted : entry.counters.isEmpty = true := by
      refine Counters.isEmpty_of_none (fun counter => ?_) (quiet.resolve_left ?_)
      · by_contra held
        have set := (kept.counted counter (eq_true_of_ne_false held)).1
        rw [unset counter] at set
        cases set
      · change ¬ .gfx11 ≤ setting.generation
        rw [earliest]
        decide
    exact absurd (kept.pending.symm.trans uncounted) Bool.false_ne_true
  writes := by
    intro slot written entry found counter set
    obtain ⟨bound, pending⟩ := Option.isSome_iff_exists.mp set
    by_contra apart
    have kept := (tracked_of_occurs occurs).registers slot entry found
    exact ready counter bound (kept.wait counter bound pending).2
      (.write written found (eq_false_of_ne_true apart) pending)
  scalar := by
    intro stale
    have idle : state.inFlight.holds .lgkm = false := by
      by_contra busy
      exact ready .lgkm 0 (eq_true_of_ne_false busy) (.scalar (.inr stale))
    have raised : state.scalarStore = true := by
      unfold readsStaleScalar at stale
      simp only [Bool.and_eq_true] at stale
      exact stale.1.1.2
    refine ⟨(busy_of_scalarStore occurs raised).resolve_right ?_, idle⟩
    rw [idle]
    exact Bool.false_ne_true

/-- The second entry is no more of a hindrance to an access than the first one. A new threshold may
only come to a register that already had one that a flat access waits for. -/
structure Eases (generation : Generation) (instr : Instr) (held entry : Entry) : Prop where
  reads : entry.onRead = true → held.onRead = true
  bounds : ∀ counter, entry.wait.isSet counter = true → held.wait.isSet counter = true ∨
    instr.encoding = .flat ∧ ∃ other, held.wait.isSet other = true
  orders : ∀ counter, entry.wait.isSet counter = true →
    inOrderBehind generation instr held counter = true →
      inOrderBehind generation instr entry counter = true

/-- What is left of an entry without some of its producers is no more of a hindrance. -/
theorem eases_of_forgetting {held entry : Entry}
    (keeps : ∀ property, Entry.KeptByForgetting generation property →
      property held → property entry) : Eases generation instr held entry where
  reads waits := by
    by_contra writeOnly
    rw [keeps _ Entry.writeOnly_keptByForgetting (eq_false_of_ne_true writeOnly)] at waits
    cases waits
  bounds counter set := by
    left
    by_contra unset
    obtain ⟨bound, pending⟩ := Option.isSome_iff_exists.mp set
    refine keeps _ (Entry.unbound_keptByForgetting counter bound) (fun before => ?_) pending
    rw [Requirement.isSet, before] at unset
    exact unset rfl
  orders counter set inOrder :=
    keeps _ (Entry.inOrder_keptByForgetting instr counter) (fun _ => inOrder) set

/-- An access stays unhindered when every entry is no more of a hindrance than before. -/
theorem Unhindered.of_eases (unhindered : state.Unhindered setting instr footprint)
    (entries : ∀ slot entry, after.registers.get? slot = some entry →
      ∃ held, state.registers.get? slot = some held ∧ Eases setting.generation instr held entry)
    (stale : after.readsStaleScalar setting instr = true →
      state.readsStaleScalar setting instr = true ∧
        (.gfx12 ≤ setting.generation → after.inFlight.holds .lgkm = state.inFlight.holds .lgkm)) :
    after.Unhindered setting instr footprint where
  reads := by
    intro slot isRead entry found
    obtain ⟨held, there, eases⟩ := entries slot entry found
    rcases unhindered.reads slot isRead held there with writeOnly | ⟨later, unset⟩
    · left
      by_contra waits
      rw [eases.reads (eq_true_of_ne_false waits)] at writeOnly
      cases writeOnly
    · refine .inr ⟨later, fun counter => ?_⟩
      by_contra set
      obtain before | ⟨_, other, before⟩ := eases.bounds counter (eq_true_of_ne_false set)
      · rw [unset counter] at before
        cases before
      · rw [unset other] at before
        cases before
  writes := by
    intro slot written entry found counter set
    obtain ⟨held, there, eases⟩ := entries slot entry found
    have inOrder := unhindered.writes slot written held there
    rcases eases.bounds counter set with before | ⟨flat, other, before⟩
    · exact eases.orders counter set (inOrder counter before)
    · have apart := inOrder other before
      rw [inOrderBehind_of_flat flat] at apart
      cases apart
  scalar := by
    intro reads
    obtain ⟨before, same⟩ := stale reads
    obtain ⟨latest, idle⟩ := unhindered.scalar before
    exact ⟨latest, (same latest).trans idle⟩

section Fellows

variable (unhindered : state.Unhindered setting instr footprint) (alike : Alike fellow instr)

include unhindered alike

/-- One more operation of a fellow hinders an access as little as before: what is pending grows
older, and the scalar cache is in the same condition. -/
theorem Unhindered.count (accounted : state.Every (Entry.Accounted setting.generation))
    {event : Event} (sync : Sync) (flat : event = .flat → fellow.encoding = .flat)
    (scalar : fellow.encoding = .smem → event = .smem) :
    (state.count setting.generation event sync).Unhindered setting instr footprint := by
  refine unhindered.of_eases ?_ ?_
  · intro slot entry found
    rw [get?_count] at found
    split at found
    · exact ⟨entry, found, id, fun _ => .inl, fun _ _ => id⟩
    · obtain ⟨held, there, rfl⟩ := Option.map_eq_some_iff.mp found
      have same : (held.age setting.generation event
          (agedCounters setting.generation state event)).onRead = held.onRead ∧
        ∀ counter, inOrderBehind setting.generation instr (held.age setting.generation event
          (agedCounters setting.generation state event)) counter =
            inOrderBehind setting.generation instr held counter := by
        unfold Entry.age
        split <;> exact ⟨rfl, fun _ => rfl⟩
      refine ⟨held, there, fun waits => same.1 ▸ waits, fun counter set => ?_,
        fun counter _ inOrder => (same.2 counter).trans inOrder⟩
      refine ((accounted slot held there).isSet_of_age set).imp_right ?_
      rintro ⟨issued, before⟩
      exact ⟨alike.encoding.trans (flat issued), before⟩
  · intro stale
    have store : (state.count setting.generation event sync).scalarStore = state.scalarStore := by
      unfold State.count
      dsimp only
      split <;> rfl
    unfold readsStaleScalar at stale ⊢
    rw [store] at stale
    refine ⟨stale, fun latest => ?_⟩
    simp only [Bool.and_eq_true] at stale
    have memory : fellow.encoding = .smem :=
      alike.encoding.symm.trans (beq_iff_eq.mp stale.1.1.1.2)
    rw [inFlight_count, Counters.holds_or, Generation.holds_countersOf, scalar memory]
    simp [Generation.counted, latest]

/-- A flat load only brings thresholds down that are there. -/
theorem Unhindered.flatLoad (accounted : state.Every (Entry.Accounted setting.generation))
    (sync : Sync) (flat : fellow.encoding = .flat) :
    (state.flatLoad setting.generation sync).Unhindered setting instr footprint := by
  refine unhindered.of_eases ?_ ?_
  · intro slot entry found
    rw [get?_flatLoad] at found
    obtain ⟨held, there, rfl⟩ := Option.map_eq_some_iff.mp found
    refine ⟨held, there, id, fun counter set => .inl ?_, fun _ _ => id⟩
    change ((Requirement.drain ..).get counter).isSome = true at set
    rw [Requirement.get_drain] at set
    split at set
    · rename_i pending
      exact (accounted slot held there).2 counter (Bool.and_eq_true_iff.mp pending).2
    · exact set
  · intro stale
    unfold readsStaleScalar at stale
    simp only [Bool.and_eq_true] at stale
    have memory : instr.encoding = .smem := beq_iff_eq.mp stale.1.1.1.2
    rw [alike.encoding, flat] at memory
    cases memory

omit alike in
/-- New producers of the registers that a fellow uses do not concern the access: it uses none of the
results, and overwrites none of the operands. -/
theorem Unhindered.track {slots : List Slot} {entry : Entry} (apart : Apart touched footprint)
    (within : (∀ slot ∈ slots, slot ∈ touched.writes) ∨
      setting.generation = .gfx6 ∧ entry.onRead = false ∧ ∀ slot ∈ slots, slot ∈ touched.reads) :
    (state.track slots entry).Unhindered setting instr footprint where
  reads := by
    intro slot isRead current found
    rw [get?_track] at found
    split at found
    · rename_i listed
      rcases within with writes | ⟨earliest, writeOnly, _⟩
      · exact absurd (writes slot listed) (apart.reads slot isRead)
      · left
        cases Option.some.inj found
        cases there : state.registers.get? slot with
        | none => exact writeOnly
        | some held =>
            have before := (unhindered.reads slot isRead held there).resolve_right
              fun later => later.1 earliest
            change (held.onRead || entry.onRead) = false
            rw [before, writeOnly]
            rfl
    · exact unhindered.reads slot isRead current found
  writes := by
    intro slot written current found
    obtain ⟨notWritten, notRead⟩ := apart.writes slot written
    have unlisted : slot ∉ slots := fun listed => within.elim
      (fun writes => notWritten (writes slot listed))
      (fun reads => notRead (reads.2.2 slot listed))
    rw [get?_track, if_neg unlisted] at found
    exact unhindered.writes slot written current found
  scalar := unhindered.scalar

/-- Each effect of a fellow leaves the access unhindered. -/
theorem Unhindered.apply (accounted : state.Every (Entry.Accounted setting.generation))
    (apart : Apart touched footprint) {effect : Effect}
    (belongs : effect.OfAccess setting.generation fellow touched) :
    (state.apply setting.generation effect).Unhindered setting instr footprint := by
  cases effect with
  | count event sync => exact unhindered.count alike accounted sync belongs.1 belongs.2
  | flatLoad sync => exact unhindered.flatLoad alike accounted sync belongs
  | track slots entry => exact unhindered.track apart belongs
  | scalarStore =>
      refine ⟨unhindered.reads, unhindered.writes, fun stale => ?_⟩
      -- Who has results is no fellow of one that has none.
      unfold readsStaleScalar at stale
      simp only [Bool.and_eq_true, Bool.not_eq_true'] at stale
      have resultless : instr.definitions.isEmpty = true := alike.results.trans belongs
      rw [stale.1.2] at resultless
      cases resultless

/-- All effects of a fellow leave the access unhindered. -/
theorem Unhindered.applyAll (accounted : state.Every (Entry.Accounted setting.generation))
    (apart : Apart touched footprint)
    (belong : ∀ effect ∈ effects, effect.OfAccess setting.generation fellow touched)
    (new : ∀ slots entry, Effect.track slots entry ∈ effects →
      entry.Accounted setting.generation) :
    (state.applyAll setting.generation effects).Unhindered setting instr footprint := by
  induction effects generalizing state with
  | nil => exact unhindered
  | cons effect rest ih =>
      obtain ⟨first, others⟩ := List.forall_mem_cons.mp belong
      refine ih (unhindered.apply alike accounted apart first) ?_ others
        fun slots entry member => new slots entry (List.mem_cons_of_mem _ member)
      change (state.applyAll setting.generation [effect]).Every _
      refine accounted.lasting_applyAll Entry.lasting_accounted fun slots entry member => ?_
      exact new slots entry (List.mem_singleton.mp member ▸ List.mem_cons_self)

/-- Issuing a fellow, its arithmetic part included, leaves the access unhindered. -/
theorem Unhindered.issueAll (occurs : Occurs setting.target state)
    (access : isAccess fellow.encoding = true) (local' : fellow.isGlobalDataShare = false)
    (touches : fellow.footprint = .ok touched) (apart : Apart touched footprint)
    (issued : issueAll setting state fellow = .ok after) :
    after.Unhindered setting instr footprint := by
  have lasting := @Entry.lasting_accounted setting.generation
  -- The asynchronous effects, from whatever state they start.
  have launches {middle : State} (reached : Occurs setting.target middle)
      (before : middle.Unhindered setting instr footprint)
      (issued : middle.issue setting.generation fellow = .ok after) :
      after.Unhindered setting instr footprint := by
    obtain ⟨effects, read, rfl⟩ := Outcome.map_eq_ok.mp issued
    have follows : Effect.Follows setting.generation ∅ effects := Effect.follows_of_ofInstr read
    exact before.applyAll alike (every_of_occurs lasting reached) apart
      (Effect.ofAccess_of_ofInstr touches access local' read)
      (property_of_follows lasting follows)
  unfold Hazard.issueAll at issued
  split at issued
  · rename_i recent
    obtain ⟨middle, arithmetic, issued⟩ := Outcome.bind_eq_ok.mp issued
    refine launches (.issueArithmetic recent occurs arithmetic) ?_ issued
    obtain ⟨effects, read, done⟩ := Outcome.bind_eq_ok.mp arithmetic
    cases done
    have tracked := unhindered.applyAll alike (every_of_occurs lasting occurs) apart
      (Effect.ofAccess_of_arithmetic touches read) (property_of_arithmetic lasting recent read)
    refine tracked.of_eases ?_ ?_
    · intro slot entry found
      obtain ⟨held, there, _⟩ :=
        exists_of_ageArithmetic (@Entry.writeOnly_keptByForgetting setting.generation) found
      refine ⟨held, there, eases_of_forgetting fun property kept before => ?_⟩
      obtain ⟨_, again, keeps⟩ := exists_of_ageArithmetic kept found
      cases there.symm.trans again
      exact keeps before
    · intro stale
      unfold readsStaleScalar at stale ⊢
      rw [scalarStore_ageArithmetic] at stale
      rw [inFlight_ageArithmetic]
      exact ⟨stale, fun _ => rfl⟩
  · exact launches occurs unhindered issued

end Fellows

end State

end WaveHazard.Hazard
