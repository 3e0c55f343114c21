import WaveHazard.Proofs.JoinLattice
import WaveHazard.Proofs.PendingThresholds
import WaveHazard.Proofs.RegisterView

/-! # Hazards along the linear control flow

From GFX11 on the registers that wait for a load or for an arithmetic result are visible along the
linear control flow: the lanes such a producer does not write must not be written by others before
it completes, whichever of them are active. A join along an edge that is linear only then takes over
what waits for it. The exceptions are the loads that GFX12 counts apart, those with a sampler and
those of ray tracing, which follow the class of the register.

Visibility is decided where a register starts to wait, for a result or for a late read, and joins
and waits can only widen it.
-/

namespace WaveHazard.Hazard

open Machine Wait Index

variable {generation : Generation} {setting : Setting} {target : Target}

namespace Event

/-- The event is a load of vector registers or an arithmetic result. -/
def isLoadOrArithmetic : Event → Bool
  | lds | gds | flat | vmem | vmemSample | vmemBvh => true
  | event => event.isArithmetic

/-- The loads that GFX12 counts apart from all others. -/
def isCountedApart : Event → Bool
  | vmemSample | vmemBvh => true
  | _ => false

variable {event : Event}

/-- From GFX11 on the results of loads and of arithmetic are tracked along linear edges, unless the
load is counted apart. -/
theorem followsLinear_of_isLoadOrArithmetic (recent : .gfx11 ≤ generation)
    (kind : event.isLoadOrArithmetic = true) (together : event.isCountedApart = false) :
    Effect.followsLinear generation event = true := by
  unfold Effect.followsLinear
  rw [decide_eq_true recent]
  cases event with
  | vmemSample | vmemBvh => cases together
  | lds | gds | flat | vmem | valu | trans | salu => rfl
  | _ => cases kind

/-- Only GFX12 counts loads apart. -/
theorem gfx12_le_of_isCountedApart
    (issued : generation.issues event = true ∨ event.isArithmetic = true)
    (apart : event.isCountedApart = true) : .gfx12 ≤ generation := by
  cases event with
  | vmemSample | vmemBvh => exact of_decide_eq_true (issued.resolve_right Bool.false_ne_true)
  | _ => cases apart

/-- Late reads are no loads. -/
theorem isLoadOrArithmetic_eq_false_of_late (late : (generation.counted .exp).holds event = true) :
    event.isLoadOrArithmetic = false := by
  rw [Generation.holds_counted] at late
  cases event <;> first | rfl | exact Bool.noConfusion late

end Event

namespace Effect

/-- What an effect lets registers wait for is a result, with the visibility it is defined with, or
a late read, which is counted together with exports. -/
inductive Originates (generation : Generation) : Effect → Prop where
  | count (event : Event) (sync : Sync) : Originates generation (.count event sync)
  | flatLoad (sync : Sync) : Originates generation (.flatLoad sync)
  | scalarStore : Originates generation .scalarStore
  | result {definition : Definition} {event : Event} {loads : LoadKind} {cycles : Int}
      {effect : Effect} : generation.issues event = true ∨ event.isArithmetic = true →
        define generation definition event loads cycles = .ok effect →
          Originates generation effect
  | lock {event : Event} (slots : List Slot) (logical : Bool) (loads : LoadKind) :
      (generation.counted .exp).holds event = true →
        Originates generation (.track slots (.ofEvent generation event logical false loads 0))

variable {instr : Instr} {event : Event} {loads : LoadKind} {effects : List Effect}

/-- A register that is locked until an export has read it is a late read. -/
theorem originates_of_lock (late : (generation.counted .exp).holds event = true)
    {operand : Operand} (locked : lock generation operand event loads = .ok effects) :
    ∀ effect ∈ effects, Originates generation effect := by
  unfold lock at locked
  split at locked
  · obtain ⟨effect, tracked, done⟩ := Outcome.bind_eq_ok.mp locked
    obtain ⟨slots, _, made⟩ := Outcome.bind_eq_ok.mp tracked
    cases done
    cases made
    exact List.forall_mem_singleton.mpr (.lock slots _ loads late)
  · cases locked
    exact fun _ member => nomatch member

/-- What an instruction defines is a result. -/
theorem originates_of_defineFirst (issued : generation.issues event = true)
    (defined : defineFirst generation instr event loads = .ok effects) :
    ∀ effect ∈ effects, Originates generation effect := by
  unfold defineFirst at defined
  split at defined
  · cases defined
    exact fun _ member => nomatch member
  · obtain ⟨effect, tracked, done⟩ := Outcome.bind_eq_ok.mp defined
    cases done
    exact List.forall_mem_singleton.mpr (.result (.inl issued) tracked)

/-- Several locks are late reads if each of them is. -/
theorem originates_of_locks {α : Type} {items : List α}
    {lockItem : α → Except Fault (List Effect)} {locks : List (List Effect)}
    (locked : items.mapM lockItem = .ok locks)
    (each : ∀ item effects, lockItem item = .ok effects →
      ∀ effect ∈ effects, Originates generation effect) :
    ∀ effect ∈ locks.flatten, Originates generation effect := by
  intro effect member
  obtain ⟨effects, listed, inside⟩ := List.mem_flatten.mp member
  obtain ⟨item, _, done⟩ := Outcome.mem_of_mapM_eq_ok locked listed
  exact each item effects done effect inside

/-- An export lets registers wait for late reads only. -/
theorem originates_of_ofExport (read : ofExport generation instr = .ok effects) :
    ∀ effect ∈ effects, Originates generation effect := by
  unfold ofExport at read
  split at read
  · rename_i target enabledMask compressed done payload
    obtain ⟨locks, locked, read⟩ := Outcome.bind_eq_ok.mp read
    obtain ⟨lanes, masked, done⟩ := Outcome.bind_eq_ok.mp read
    cases done
    refine List.forall_mem_cons.mpr ⟨.count _ _, List.forall_mem_append.mpr
      ⟨originates_of_locks locked fun position found computed => ?_,
        originates_of_lock (counted_exportEvent target) masked⟩⟩
    split at computed
    · exact originates_of_lock (counted_exportEvent target) computed
    · cases computed
  · cases read

/-- An access to the data shares lets registers wait for results, and for late reads of the global
share. -/
theorem originates_of_ofDataShare (read : ofDataShare generation instr = .ok effects) :
    ∀ effect ∈ effects, Originates generation effect := by
  unfold ofDataShare at read
  split at read
  · obtain ⟨result, defined, read⟩ := Outcome.bind_eq_ok.mp read
    obtain ⟨locks, locked, done⟩ := Outcome.bind_eq_ok.mp read
    cases done
    refine List.forall_mem_append.mpr ⟨List.forall_mem_cons.mpr ⟨.count _ _,
      List.forall_mem_cons.mpr ⟨.count _ _, originates_of_defineFirst rfl defined⟩⟩, ?_⟩
    exact originates_of_locks locked fun _ _ =>
      originates_of_lock (generation.holds_counted .exp .gdsGprLock)
  · obtain ⟨result, defined, done⟩ := Outcome.bind_eq_ok.mp read
    cases done
    exact List.forall_mem_cons.mpr ⟨.count _ _, originates_of_defineFirst rfl defined⟩

/-- An access to vector memory lets registers wait for results, and for late reads of what it
stores. -/
theorem originates_of_ofVectorMemory (read : ofVectorMemory generation instr = .ok effects) :
    ∀ effect ∈ effects, Originates generation effect := by
  obtain ⟨result, defined, read⟩ := Outcome.bind_eq_ok.mp read
  obtain ⟨late, locked, done⟩ := Outcome.bind_eq_ok.mp read
  cases done
  refine List.forall_mem_append.mpr ⟨List.forall_mem_cons.mpr ⟨.count _ _,
    originates_of_defineFirst (issues_loadEvent generation instr _) defined⟩, ?_⟩
  unfold lateLock at locked
  split at locked
  · obtain ⟨locks, locking, done⟩ := Outcome.bind_eq_ok.mp locked
    cases done
    exact List.forall_mem_cons.mpr ⟨.count _ _,
      originates_of_lock (generation.holds_counted .exp .vmemGprLock) locking⟩
  · cases locked
    exact fun _ member => nomatch member

/-- Whatever an instruction lets registers wait for is a result or a late read. -/
theorem originates_of_ofInstr (read : ofInstr generation instr = .ok effects) :
    ∀ effect ∈ effects, Originates generation effect := by
  unfold ofInstr at read
  split at read
  case h_1 => exact originates_of_ofExport read
  case h_2 =>
    obtain ⟨result, defined, done⟩ := Outcome.bind_eq_ok.mp read
    cases done
    refine List.forall_mem_cons.mpr ⟨?_, originates_of_defineFirst rfl defined⟩
    split
    · exact .flatLoad _
    · exact .count _ _
  case h_3 =>
    obtain ⟨result, defined, done⟩ := Outcome.bind_eq_ok.mp read
    cases done
    refine List.forall_mem_append.mpr ⟨List.forall_mem_cons.mpr ⟨.count _ _,
      originates_of_defineFirst rfl defined⟩, ?_⟩
    split
    · exact List.forall_mem_singleton.mpr .scalarStore
    · exact fun _ member => nomatch member
  case h_4 => exact originates_of_ofDataShare read
  case h_5 =>
    unfold ofDirectLoad at read
    split at read
    · cases read
    · obtain ⟨result, defined, done⟩ := Outcome.bind_eq_ok.mp read
      cases done
      exact List.forall_mem_cons.mpr ⟨.count _ _, originates_of_defineFirst rfl defined⟩
  case h_6 | h_7 | h_8 | h_9 | h_10 => exact originates_of_ofVectorMemory read
  case h_11 =>
    split at read <;> cases read
    · exact List.forall_mem_singleton.mpr (.count _ _)
    · exact fun _ member => nomatch member
  case h_12 =>
    split at read
    · unfold ofMessageReply at read
      split at read
      · cases read
      · obtain ⟨result, defined, done⟩ := Outcome.bind_eq_ok.mp read
        cases done
        exact List.forall_mem_cons.mpr ⟨.count _ _, originates_of_defineFirst rfl defined⟩
    · cases read
      exact fun _ member => nomatch member
  case h_13 =>
    cases read
    exact fun _ member => nomatch member

/-- Arithmetic lets registers wait for results. -/
theorem originates_of_arithmetic {latency : Int}
    (read : arithmetic generation instr latency = .ok effects) :
    ∀ effect ∈ effects, Originates generation effect := by
  intro effect member
  unfold arithmetic at read
  split at read
  · cases read
    cases member
  · rename_i event found
    obtain ⟨definition, _, defined⟩ := Outcome.mem_of_mapM_eq_ok read member
    exact .result (.inr (isArithmetic_of_arithmeticEvent? found)) defined

end Effect

/-- The registers of loads and of arithmetic results are visible along the linear control flow, but
for those of the loads that GFX12 counts apart. -/
def Entry.IsLinear (generation : Generation) (entry : Entry) : Prop :=
  ∀ event, entry.events.holds event = true → event.isLoadOrArithmetic = true →
    entry.logical = false ∨ .gfx12 ≤ generation ∧ event.isCountedApart = true

namespace Entry

variable {entry held new : Entry}

/-- A joined entry is visible along linear edges when the entries it is made of are. -/
theorem IsLinear.join (first : held.IsLinear generation) (second : new.IsLinear generation) :
    (held.join new).IsLinear generation := by
  intro event pending kind
  change Events.holds (held.events ||| new.events) event = true at pending
  change (held.logical && new.logical) = false ∨ _
  rw [Events.holds_or, Bool.or_eq_true] at pending
  rw [Bool.and_eq_false_iff]
  rcases pending with mine | theirs
  · exact (first event mine kind).imp_left .inl
  · exact (second event theirs kind).imp_left .inr

/-- Later operations do not change the visibility of an entry. -/
theorem IsLinear.age (linear : entry.IsLinear generation) (event : Event) (counters : Counters) :
    (entry.age generation event counters).IsLinear generation := by
  unfold Entry.age
  split
  · exact linear
  · exact linear

/-- What is forgotten is no reason to hide anything. -/
theorem isLinear_keptByForgetting : KeptByForgetting generation (IsLinear generation) where
  delay _ linear := linear
  dropArithmetic {entry} linear event pending kind := by
    change Events.holds (entry.events.diff Events.arithmetic) event = true at pending
    rw [Events.holds_diff, Bool.and_eq_true] at pending
    exact linear event pending.1 kind
  dropCounter {entry} counter linear event pending kind := by
    refine linear event ?_ kind
    unfold dropCounter at pending
    dsimp only at pending
    split at pending
    · rw [Events.holds_and, Bool.and_eq_true] at pending
      exact pending.1
    · rw [Events.holds_diff, Events.holds_and, Bool.and_eq_true, Bool.and_eq_true] at pending
      exact pending.1.1

/-- A result is defined along the linear control flow if its event asks for it. -/
theorem isLinear_of_define (recent : .gfx11 ≤ generation) {definition : Definition} {event : Event}
    {loads : LoadKind} {cycles : Int} {slots : List Slot}
    (issued : generation.issues event = true ∨ event.isArithmetic = true)
    (defined : Effect.define generation definition event loads cycles = .ok (.track slots entry)) :
    entry.IsLinear generation := by
  obtain ⟨_, _, made⟩ := Outcome.bind_eq_ok.mp defined
  cases made
  intro other pending kind
  change (Events.single event).holds other = true at pending
  rw [Events.holds_single, decide_eq_true_eq] at pending
  subst pending
  change (!definition.cls.isLinear && !Effect.followsLinear generation event) = false ∨ _
  cases apart : event.isCountedApart with
  | true => exact .inr ⟨event.gfx12_le_of_isCountedApart issued apart, rfl⟩
  | false =>
      rw [event.followsLinear_of_isLoadOrArithmetic recent kind apart]
      exact .inl (Bool.and_false _)

/-- A register that is read late waits for no load. -/
theorem isLinear_of_late {event : Event} (late : (generation.counted .exp).holds event = true)
    (logical : Bool) (loads : LoadKind) :
    (ofEvent generation event logical false loads 0).IsLinear generation := by
  intro other pending kind
  change (Events.single event).holds other = true at pending
  rw [Events.holds_single, decide_eq_true_eq] at pending
  subst pending
  rw [Event.isLoadOrArithmetic_eq_false_of_late late] at kind
  cases kind

/-- Whatever lets a register wait, its entry is visible along linear edges if it is for a load or
for arithmetic. -/
theorem isLinear_of_originates (recent : .gfx11 ≤ generation) {slots : List Slot}
    (originates : Effect.Originates generation (.track slots entry)) :
    entry.IsLinear generation := by
  cases originates with
  | result issued defined => exact isLinear_of_define recent issued defined
  | lock _ logical loads late => exact isLinear_of_late late logical loads

end Entry

namespace State

variable {state after other : State} {instr : Instr}

/-- The entries stay linear when the effects of an instruction are applied. -/
theorem Every.isLinear_applyAll (recent : .gfx11 ≤ generation)
    (linear : state.Every (Entry.IsLinear generation)) {effects : List Effect}
    (originates : ∀ effect ∈ effects, Effect.Originates generation effect) :
    (state.applyAll generation effects).Every (Entry.IsLinear generation) := by
  refine linear.applyAll ?_ ?_ ?_
  · exact fun event _ _ entry counters before => before.age event counters
  · exact fun entry before chosen _ => before
  · intro slots new tracked
    have fresh := Entry.isLinear_of_originates recent (originates _ tracked)
    exact ⟨fresh, fun held before => before.join fresh⟩

/-- The entries of arguments that are being loaded are linear. -/
theorem Every.isLinear_atEntry (recent : .gfx11 ≤ generation)
    (linear : state.Every (Entry.IsLinear generation)) {program : Program}
    (seeded : state.atEntry generation program = .ok after) :
    after.Every (Entry.IsLinear generation) := by
  refine Outcome.foldlM_keeps (fun state => state.Every (Entry.IsLinear generation)) seeded ?_ ?_
  · split
    · exact linear
    · exact linear
  · intro definition _ before next kept stepped
    obtain ⟨effect, defined, done⟩ := Outcome.bind_eq_ok.mp stepped
    cases done
    have originates : ∀ effect' ∈ [.count .vmem {}, effect],
        Effect.Originates generation effect' :=
      List.forall_mem_cons.mpr ⟨.count _ _, List.forall_mem_singleton.mpr
        (.result (.inl rfl) defined)⟩
    exact Every.isLinear_applyAll recent kept originates

/-- In every state that comes to be the entries of loads and of arithmetic are linear. -/
theorem isLinear_of_arises (recent : .gfx11 ≤ target.generation)
    {admits : State → Instr → Prop} (arises : Arises target admits state) :
    state.Every (Entry.IsLinear target.generation) := by
  induction arises with
  | empty => exact every_empty _
  | issue _ _ issued ih =>
      obtain ⟨effects, read, rfl⟩ := Outcome.map_eq_ok.mp issued
      exact ih.isLinear_applyAll recent (Effect.originates_of_ofInstr read)
  | issueArithmetic _ issued ih =>
      obtain ⟨effects, read, done⟩ := Outcome.bind_eq_ok.mp issued
      cases done
      have applied := ih.isLinear_applyAll recent (Effect.originates_of_arithmetic read)
      exact applied.ageArithmetic_of_kept Entry.isLinear_keptByForgetting _ _ _ _
  | demand same _ demanded ih =>
      subst same
      exact ih.demand_of_kept Entry.isLinear_keptByForgetting demanded
  | atEntry _ seeded ih => exact ih.isLinear_atEntry recent seeded
  | join logical _ _ mine theirs => exact mine.join theirs (fun _ _ => Entry.IsLinear.join) logical

/-- An entry that is visible along a graph is taken over by every join along that graph. -/
theorem exists_join_of_visible {slot : Slot} {entry : Entry}
    (held : state.registers.get? slot = some entry) (into : State) :
    ∃ taken, (into.join state entry.logical).registers.get? slot = some taken ∧ entry ≤ taken := by
  rw [get?_registers_join, held]
  cases mine : into.registers.get? slot with
  | none => exact ⟨entry, if_pos rfl, le_rfl⟩
  | some before =>
      refine ⟨before.join entry, if_pos rfl, ?_⟩
      rw [Entry.join_comm]
      exact Entry.le_join entry before

/-- From GFX11 on a register that waits for a load or for an arithmetic result is visible along the
linear control flow, and a join along an edge that is linear only takes over all of its hazard, if
the load is none of those that GFX12 counts apart. -/
theorem loads_follow_linear_flow {admits : State → Instr → Prop}
    (recent : .gfx11 ≤ target.generation) (arises : Arises target admits state) {slot : Slot}
    {entry : Entry} (held : state.registers.get? slot = some entry) {event : Event}
    (pending : entry.events.holds event = true) (kind : event.isLoadOrArithmetic = true)
    (together : .gfx12 ≤ target.generation → event.isCountedApart = false) :
    entry.logical = false ∧ ∀ into : State, ∃ taken,
      (into.join state false).registers.get? slot = some taken ∧ entry ≤ taken := by
  have linear : entry.logical = false := by
    rcases isLinear_of_arises recent arises slot entry held event pending kind with
      visible | ⟨late, apart⟩
    · exact visible
    · exact Bool.noConfusion ((together late).symm.trans apart)
  exact ⟨linear, fun into => linear ▸ exists_join_of_visible held into⟩

namespace SampledImage

theorem first_inside : 256 < slotCount := by decide

/-- The first vector register. -/
def first : Slot := ⟨256, first_inside⟩

/-- A load through a sampler to the first vector register. -/
def sample : Instr :=
  { opcode := .imageSample, definitions := [⟨⟨256⟩, .vector 1⟩],
    operands := [.reg ⟨0⟩ (.scalar 8), .reg ⟨8⟩ (.scalar 4)] }

/-- What the register waits for behind the load, which is an event of its own from GFX12 on. -/
def waiting (generation : Generation) : Entry :=
  if .gfx12 ≤ generation then .ofEvent generation .vmemSample true true LoadKind.sampler 0
  else .ofEvent generation .vmem false true LoadKind.sampler 0

/-- The state behind the load. -/
def sampled (generation : Generation) : State :=
  (State.count generation ∅ (if .gfx12 ≤ generation then .vmemSample else .vmem) {}).track [first]
    (waiting generation)

/-- Behind the load its register waits for it. -/
theorem get?_sampled (generation : Generation) :
    (sampled generation).registers.get? first = some (waiting generation) := by
  have nothing : (∅ : State).registers.get? first = none := SlotMap.get?_empty _
  unfold sampled
  rw [get?_track, if_pos List.mem_cons_self, get?_count, nothing, Option.map_none, ite_self]
  rfl

variable {admits : State → Instr → Prop}

/-- The state behind the load comes to be on GFX11. -/
theorem arises_on_gfx11 (admitted : admits ∅ sample) :
    Arises (.ofGeneration .gfx11) admits (sampled .gfx11) := by
  have samples : (∅ : State).issue .gfx11 sample = .ok (sampled .gfx11) := rfl
  exact .issue .empty admitted samples

/-- The state behind the load comes to be on GFX12. -/
theorem arises_on_gfx12 (admitted : admits ∅ sample) :
    Arises (.ofGeneration .gfx12) admits (sampled .gfx12) := by
  have samples : (∅ : State).issue .gfx12 sample = .ok (sampled .gfx12) := rfl
  exact .issue .empty admitted samples

end SampledImage

open SampledImage in
/-- On GFX11 a join along an edge that is linear only takes a load through a sampler over. -/
theorem sampled_image_follows_linear_flow :
    Arises (.ofGeneration .gfx11) (fun _ _ => True) (sampled .gfx11) ∧
      (waiting .gfx11).events.holds .vmem = true ∧ (waiting .gfx11).logical = false ∧
      ∀ into : State, ∃ taken,
        (into.join (sampled .gfx11) false).registers.get? first = some taken ∧
          waiting .gfx11 ≤ taken := by
  have arises : Arises (.ofGeneration .gfx11) (fun _ _ => True) (sampled .gfx11) :=
    arises_on_gfx11 trivial
  have pending : (waiting .gfx11).events.holds .vmem = true := by decide
  obtain ⟨linear, taken⟩ := loads_follow_linear_flow (by decide) arises (get?_sampled .gfx11)
    pending rfl (fun _ => rfl)
  exact ⟨arises, pending, linear, taken⟩

open SampledImage in
/-- On GFX12 the same load is visible along the logical control flow only, and a join along an edge
that is linear only forgets it, although reads of the register have to wait. -/
theorem sampled_image_lost_on_linear_edge :
    Arises (.ofGeneration .gfx12) (fun _ _ => True) (sampled .gfx12) ∧
      (sampled .gfx12).registers.get? first = some (waiting .gfx12) ∧
      (waiting .gfx12).events.holds .vmemSample = true ∧ (waiting .gfx12).onRead = true ∧
      (waiting .gfx12).logical = true ∧
      ((∅ : State).join (sampled .gfx12) false).registers.get? first = none := by
  refine ⟨arises_on_gfx12 trivial, get?_sampled .gfx12, by decide, rfl, rfl, ?_⟩
  rw [get?_registers_join, get?_sampled]
  exact SlotMap.get?_empty first

end State

end WaveHazard.Hazard
