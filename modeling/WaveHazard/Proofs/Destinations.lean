import WaveHazard.Proofs.Bookkeeping
import WaveHazard.Proofs.Invariants
import WaveHazard.Proofs.RegisterView
import WaveHazard.Proofs.Validation

/-! # Results that are still on their way

An instruction that loads through memory or gets an answer to a message has a result that arrives
later. Whatever the state was before, the first definition of the instruction waits for the event
of the result behind it, on every counter of the event, until nothing of the event is outstanding.

The further definitions leave no trace: an instruction sets in motion what it would set in motion
with its first definition alone.
-/

namespace WaveHazard

open Machine Wait

/-- The instruction with no definition but the first one. -/
def Machine.Instr.firstOnly (instr : Instr) : Instr :=
  { instr with definitions := instr.definitions.take 1 }

namespace Hazard

variable {generation : Generation} {instr : Instr} {event : Event}

/-- The event that the results of an instruction wait for, which loads through memory and messages
with a reply have. -/
def resultEvent? (generation : Generation) (instr : Instr) : Option Event :=
  match instr.encoding with
  | .flat => some .flat
  | .smem => some .smem
  | .ds => some (if instr.isGlobalDataShare then .gds else .lds)
  | .ldsdir => some .ldsdir
  | .mubuf | .mtbuf | .mimg | .global | .scratch =>
      some (loadEvent generation instr (loadKind instr))
  | .sop1 =>
      if instr.opcode = .sSendmsgRtnB32 ∨ instr.opcode = .sSendmsgRtnB64 then some .sendmsg
      else none
  | _ => none

section FirstOnly

/-- An instruction without definitions has nothing to leave out. -/
theorem firstOnly_of_nil (undefined : instr.definitions = []) : instr.firstOnly = instr := by
  unfold Instr.firstOnly
  rw [undefined, List.take_nil, ← undefined]

/-- At most one definition is left. -/
theorem length_firstOnly (instr : Instr) : instr.firstOnly.definitions.length ≤ 1 :=
  List.length_take_le 1 instr.definitions

/-- What is left to write are the slots of the first definition. -/
theorem writes_firstOnly {definition : Definition}
    (first : instr.definitions.head? = some definition) :
    instr.firstOnly.writes = definition.slots := by
  unfold Instr.writes Instr.firstOnly
  rw [List.take_one, first]
  exact List.flatMap_singleton _ _

/-- An instruction that is no export sets in motion what it does with its first definition alone. -/
theorem ofInstr_firstOnly (instr : Instr) (ordinary : instr.encoding ≠ .exp) :
    Effect.ofInstr generation instr.firstOnly = Effect.ofInstr generation instr := by
  have encoding : instr.firstOnly.encoding = instr.encoding := rfl
  cases listed : instr.definitions with
  | nil => rw [firstOnly_of_nil listed]
  | cons definition others =>
      obtain ⟨opcode, operands, definitions, payload, scratch⟩ := instr
      cases listed
      unfold Effect.ofInstr
      rw [encoding]
      split
      case h_1 exports => exact absurd exports ordinary
      all_goals rfl

/-- What the results wait for does not depend on how many there are. -/
theorem resultEvent?_firstOnly (instr : Instr) :
    resultEvent? generation instr.firstOnly = resultEvent? generation instr := by
  cases listed : instr.definitions with
  | nil => rw [firstOnly_of_nil listed]
  | cons definition others =>
      obtain ⟨opcode, operands, definitions, payload, scratch⟩ := instr
      cases listed
      rfl

end FirstOnly

/-- One of the operations of an instruction writes its results. -/
theorem exists_operation_of_resultEvent? (awaits : resultEvent? generation instr = some event) :
    ∃ operation ∈ operationsOf generation instr, operation.event = event ∧
      operation.writes = resolved instr.writes := by
  unfold resultEvent? at awaits
  split at awaits
  case h_3 encoding =>
    cases awaits
    unfold operationsOf
    rw [encoding]
    dsimp only
    split
    · exact ⟨_, List.mem_cons_self, rfl, rfl⟩
    · exact ⟨_, List.mem_cons_self, rfl, rfl⟩
  case h_10 encoding =>
    unfold operationsOf
    rw [encoding]
    dsimp only
    split at awaits
    · cases awaits
      rw [if_pos ‹_›]
      exact ⟨_, List.mem_cons_self, rfl, rfl⟩
    · cases awaits
  case h_11 => cases awaits
  case h_1 encoding | h_2 encoding | h_4 encoding =>
    cases awaits
    unfold operationsOf
    rw [encoding]
    exact ⟨_, List.mem_cons_self, rfl, rfl⟩
  all_goals
    rename_i encoding
    cases awaits
    rw [operationsOf_of_vectorMemory (by simp [encoding]), vectorMemoryOperations_eq]
    exact ⟨_, List.mem_cons_self, rfl, rfl⟩

/-- Exports have no results. -/
theorem encoding_ne_exp_of_resultEvent? (awaits : resultEvent? generation instr = some event) :
    instr.encoding ≠ .exp := by
  intro exports
  unfold resultEvent? at awaits
  rw [exports] at awaits
  cases awaits

/-- Results wait for events that the generation has. -/
theorem issues_of_resultEvent? (awaits : resultEvent? generation instr = some event) :
    generation.issues event = true := by
  unfold resultEvent? at awaits
  split at awaits
  case h_3 =>
    cases awaits
    split <;> rfl
  case h_10 =>
    split at awaits <;> cases awaits
    rfl
  case h_11 => cases awaits
  case h_1 | h_2 | h_4 =>
    cases awaits
    rfl
  all_goals
    cases awaits
    exact Effect.issues_loadEvent generation instr _

/-- What an entry asks for when it has just been made for an event: nothing of the event may be
outstanding. -/
structure Entry.IsFresh (generation : Generation) (entry : Entry) (event : Event) : Prop where
  named : entry.events.holds event = true
  read : entry.onRead = true
  drains : ∀ counter, (generation.countersOf event).holds counter = true →
    entry.wait.get counter = some 0

/-- An entry that knows of the newest operation of an event on each of its counters is as good as
new. -/
theorem Entry.isFresh_of_guards {entry : Entry} {operation : Operation}
    (issued : generation.issues operation.event = true)
    (guards : ∀ counter, (generation.counted counter).holds operation.event = true →
      entry.Guards true { operation, counter } 0) : entry.IsFresh generation operation.event where
  named := by
    obtain ⟨counter, counted⟩ := Generation.exists_counter_of_issues issued
    exact (guards counter counted).awaits.named
  read := by
    obtain ⟨counter, counted⟩ := Generation.exists_counter_of_issues issued
    exact (guards counter counted).read rfl
  drains := by
    intro counter counts
    rw [Generation.holds_countersOf] at counts
    obtain ⟨bound, asked, below⟩ := (guards counter counts).awaits.bounded
    rw [asked, Nat.le_zero.mp below]

/-- Behind a load or a message with a reply all counters of its event are in flight, and the
registers of its first definition wait for it, whatever they waited for before. -/
theorem first_result_awaited {state : State} (accepted : WellFormed.checkInstr instr = .ok ())
    (awaits : resultEvent? generation instr = some event) :
    ∃ after, state.issue generation instr = .ok after ∧
      (∀ counter, (generation.countersOf event).holds counter = true →
        after.inFlight.holds counter = true) ∧
      ∀ definition, instr.definitions.head? = some definition → ∀ slot ∈ definition.slots,
        ∃ inside entry, slot = .ok inside ∧ after.registers.get? inside = some entry ∧
          entry.IsFresh generation event := by
  have resolves := WellFormed.accepted_of_checkInstr accepted
  obtain ⟨effects, read⟩ := @Effect.succeeds_ofInstr generation instr resolves
  have realized := realized_of_ofInstr
    ((ofInstr_firstOnly instr (encoding_ne_exp_of_resultEvent? awaits)).trans read)
  have issued := issues_of_resultEvent? awaits
  obtain ⟨operation, member, rfl, written⟩ :=
    exists_operation_of_resultEvent? ((resultEvent?_firstOnly instr).trans awaits)
  refine ⟨state.applyAll generation effects, by rw [State.issue, read]; rfl, ?_, ?_⟩
  · intro counter counts
    rw [Generation.holds_countersOf] at counts
    have busy : Busy generation (state.applyAll generation effects) { operation, counter } :=
      busy_of_realized realized member counts
    exact busy.inFlight
  · intro definition first slot listed
    obtain ⟨inside, rfl⟩ :=
      resolves.definitions definition (List.mem_of_mem_head? first) slot listed
    have writes : inside ∈ operation.writes := by
      rw [written, writes_firstOnly first]
      exact List.mem_filterMap.mpr ⟨_, listed, rfl⟩
    have guards (counter : Counter)
        (counted : (generation.counted counter).holds operation.event = true) :
        GuardsAt (state.applyAll generation effects) inside true { operation, counter } 0 :=
      guardsAt_of_settles (realized.writes (length_firstOnly instr) _ member inside writes) counted
    obtain ⟨counter, counted⟩ := Generation.exists_counter_of_issues issued
    obtain ⟨entry, found, _⟩ := guards counter counted
    refine ⟨inside, entry, rfl, found, Entry.isFresh_of_guards issued fun other counts => ?_⟩
    obtain ⟨same, there, guard⟩ := guards other counts
    cases found.symm.trans there
    exact guard

namespace TwoResults

theorem first_inside : 256 < slotCount := by decide

theorem second_inside : 257 < slotCount := by decide

/-- The register of the first definition. -/
def first : Slot := ⟨256, first_inside⟩

/-- The register of the second definition. -/
def second : Slot := ⟨257, second_inside⟩

/-- A load whose result is split over two definitions. -/
def load : Instr :=
  { opcode := .globalLoadDwordx2,
    definitions := [⟨⟨256⟩, .vector 1⟩, ⟨⟨257⟩, .vector 1⟩],
    operands := [.reg ⟨260⟩ (.vector 2)] }

/-- The state behind the load. -/
def loaded : State :=
  ((∅ : State).count .gfx10p3 .vmem {}).track [first]
    (.ofEvent .gfx10p3 .vmem true true LoadKind.plain 0)

/-- The load can be issued, and leaves this state. -/
theorem issue_load : (∅ : State).issue .gfx10p3 load = .ok loaded := rfl

/-- Nothing is pending for the second register. -/
theorem get?_second : loaded.registers.get? second = none := by
  have nothing : (∅ : State).registers.get? second = none := Index.SlotMap.get?_empty _
  unfold loaded
  rw [State.get?_track, if_neg (by decide), State.get?_count, nothing]
  decide

end TwoResults

open TwoResults in
/-- The first register waits for the load, also where it has waited for one before. -/
theorem first_of_two_results_awaited :
    WellFormed.checkInstr load = .ok () ∧ resultEvent? .gfx10p3 load = some .vmem ∧
      ∃ after, loaded.issue .gfx10p3 load = .ok after ∧
        (∀ counter, (Generation.gfx10p3.countersOf .vmem).holds counter = true →
          after.inFlight.holds counter = true) ∧
        ∀ definition, load.definitions.head? = some definition → ∀ slot ∈ definition.slots,
          ∃ inside entry, slot = .ok inside ∧ after.registers.get? inside = some entry ∧
            entry.IsFresh .gfx10p3 .vmem := by
  have accepted : WellFormed.checkInstr load = .ok () := by decide
  have awaits : resultEvent? .gfx10p3 load = some .vmem := by decide
  exact ⟨accepted, awaits, first_result_awaited accepted awaits⟩

open TwoResults in
/-- The load writes the second register as well, and nothing waits for it. -/
theorem second_result_forgotten :
    WellFormed.checkInstr load = .ok () ∧ resultEvent? .gfx10p3 load = some .vmem ∧
      ∃ after, (∅ : State).issue .gfx10p3 load = .ok after ∧
        ∃ definition ∈ load.definitions, .ok second ∈ definition.slots ∧
          after.registers.get? second = none :=
  ⟨by decide, by decide, loaded, issue_load, ⟨⟨257⟩, .vector 1⟩, by decide, by decide,
    get?_second⟩

end Hazard

end WaveHazard
