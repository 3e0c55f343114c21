import Mathlib.Data.List.Nodup
import WaveHazard.Hazard.Transfer
import WaveHazard.Proofs.Outcome
import WaveHazard.Proofs.Tally

/-! # Effects and the operations behind them

The analysis reads a list of effects off an instruction; the machine puts operations in flight. The
effects realize the operations: every operation is counted exactly once, and every register that an
operation writes or reads late is tracked after the operation was counted.
-/

namespace WaveHazard.Hazard

open Machine Wait

/-- The operation that an effect counts: its event and what it synchronizes with. -/
def Effect.operation? : Effect → Option (Event × Sync)
  | .count event sync => some (event, sync)
  | .flatLoad sync => some (.flat, sync)
  | .track _ _ => none
  | .scalarStore => none

/-- The event of the operation that an effect counts. -/
def Effect.event? (effect : Effect) : Option Event := effect.operation?.map Prod.fst

/-- Whether an effect makes a slot wait for an event; `onRead` says whether reads wait too. -/
def Effect.Covers (generation : Generation) (event : Event) (onRead : Bool) (slot : Slot)
    (effect : Effect) : Prop :=
  ∃ slots logical loads cycles,
    effect = .track slots (.ofEvent generation event logical onRead loads cycles) ∧ slot ∈ slots

/-- Some effect has a property, and no effect after it counts the event. -/
def Settles (effects : List Effect) (event : Event) (property : Effect → Prop) : Prop :=
  ∃ early effect late, effects = early ++ effect :: late ∧ property effect ∧
    ∀ other ∈ late, other.event? ≠ some event

/-- Effects that count nothing. -/
def Quiet (effects : List Effect) : Prop := ∀ effect ∈ effects, effect.event? = none

/-- The effects count the operations, and track what the operations write and lock. The registers
that are written are those of a single definition; registers are locked on the export counter. -/
structure Realized (generation : Generation) (effects : List Effect)
    (operations : List Operation) (single : Prop) : Prop where
  events : effects.filterMap Effect.event? = operations.map Operation.event
  counts : ∀ operation ∈ operations, Settles effects operation.event fun effect =>
    effect.operation? = some (operation.event, operation.sync)
  writes : single → ∀ operation ∈ operations, ∀ slot ∈ operation.writes,
    Settles effects operation.event (Effect.Covers generation operation.event true slot)
  locks : ∀ operation ∈ operations, ∀ slot ∈ operation.locks,
    Settles effects operation.event (Effect.Covers generation operation.event false slot)
  late : ∀ operation ∈ operations, operation.locks ≠ [] →
    (generation.counted .exp).holds operation.event = true

namespace Settles

variable {effects more : List Effect} {event : Event} {property : Effect → Prop}

/-- Among effects that count nothing any effect may come last. -/
theorem of_mem (quiet : Quiet effects) {effect : Effect} (member : effect ∈ effects)
    (holds : property effect) : Settles effects event property := by
  obtain ⟨early, late, rfl⟩ := List.append_of_mem member
  refine ⟨early, effect, late, rfl, holds, ?_⟩
  intro other after
  rw [quiet other (List.mem_append_right _ (List.mem_cons_of_mem _ after))]
  exact nofun

theorem prepend (settles : Settles effects event property) :
    Settles (more ++ effects) event property := by
  obtain ⟨early, effect, late, rfl, rest⟩ := settles
  exact ⟨more ++ early, effect, late, (List.append_assoc _ _ _).symm, rest⟩

/-- Effects that count other events may follow. -/
theorem append (settles : Settles effects event property)
    (others : ∀ effect ∈ more, effect.event? ≠ some event) :
    Settles (effects ++ more) event property := by
  obtain ⟨early, effect, late, rfl, holds, after⟩ := settles
  refine ⟨early, effect, late ++ more, by simp, holds, ?_⟩
  intro other member
  rcases List.mem_append.mp member with inside | outside
  · exact after other inside
  · exact others other outside

end Settles

theorem Quiet.nil : Quiet [] := fun _ member => absurd member List.not_mem_nil

/-- Effects that count no operation may be put behind each other. -/
theorem Quiet.append {first second : List Effect} (left : Quiet first) (right : Quiet second) :
    Quiet (first ++ second) := by
  intro effect member
  rcases List.mem_append.mp member with inside | outside
  · exact left effect inside
  · exact right effect outside

theorem Quiet.filterMap {effects : List Effect} (quiet : Quiet effects) :
    effects.filterMap Effect.event? = [] :=
  List.filterMap_eq_nil_iff.mpr quiet

namespace Realized

variable {generation : Generation} {single : Prop}

/-- No effects stand for no operations. -/
theorem nil : Realized generation [] [] single where
  events := rfl
  counts := fun _ member => absurd member List.not_mem_nil
  writes := fun _ _ member => absurd member List.not_mem_nil
  locks := fun _ member => absurd member List.not_mem_nil
  late := fun _ member => absurd member List.not_mem_nil

/-- Operations of different events that are counted before anything is tracked. -/
theorem of_heads (heads : List Effect) {tracks : List Effect} {operations : List Operation}
    (counted : heads.map Effect.operation? =
      operations.map fun operation => some (operation.event, operation.sync))
    (different : (operations.map Operation.event).Nodup) (quiet : Quiet tracks)
    (writes : single → ∀ operation ∈ operations, ∀ slot ∈ operation.writes,
      ∃ effect ∈ tracks, effect.Covers generation operation.event true slot)
    (locks : ∀ operation ∈ operations, ∀ slot ∈ operation.locks,
      ∃ effect ∈ tracks, effect.Covers generation operation.event false slot)
    (late : ∀ operation ∈ operations, operation.locks ≠ [] →
      (generation.counted .exp).holds operation.event = true) :
    Realized generation (heads ++ tracks) operations single where
  events := by
    have named : heads.map Effect.event? = operations.map fun operation =>
        some operation.event := by
      have projected := congrArg (List.map (Option.map Prod.fst)) counted
      rw [List.map_map, List.map_map] at projected
      exact projected
    rw [List.filterMap_append, quiet.filterMap, List.append_nil]
    calc heads.filterMap Effect.event?
        = (heads.map Effect.event?).filterMap id := by rw [List.filterMap_map]; rfl
      _ = operations.map Operation.event := by
          rw [named, List.filterMap_map, ← List.filterMap_eq_map]
          rfl
  counts := by
    intro operation member
    obtain ⟨before, after, rfl⟩ := List.append_of_mem member
    rw [List.map_append, List.map_cons] at counted different
    obtain ⟨early, rest, rfl, _, following⟩ := List.map_eq_append_iff.mp counted
    obtain ⟨effect, late, rfl, holds, behind⟩ := List.map_eq_cons_iff.mp following
    refine Settles.append ⟨early, effect, late, rfl, holds, ?_⟩ ?_
    · intro other inside same
      have listed := List.mem_map_of_mem (f := Effect.operation?) inside
      rw [behind] at listed
      obtain ⟨younger, there, found⟩ := List.mem_map.mp listed
      unfold Effect.event? at same
      rw [← found] at same
      have apart := (List.nodup_cons.mp (List.nodup_append.mp different).2.1).1
      exact apart (List.mem_map.mpr ⟨younger, there, Option.some.inj same⟩)
    · intro other inside
      rw [quiet other inside]
      exact nofun
  writes := by
    intro alone operation member slot written
    obtain ⟨effect, there, covers⟩ := writes alone operation member slot written
    exact (Settles.of_mem quiet there covers).prepend
  locks := by
    intro operation member slot locked
    obtain ⟨effect, there, covers⟩ := locks operation member slot locked
    exact (Settles.of_mem quiet there covers).prepend
  late := late

/-- Operations that are counted and tracked one after the other, if their events differ. -/
theorem append {first second : List Effect} {left right : List Operation}
    (before : Realized generation first left single)
    (after : Realized generation second right single)
    (different : ∀ operation ∈ left, ∀ other ∈ right, operation.event ≠ other.event) :
    Realized generation (first ++ second) (left ++ right) single := by
  have apart (operation : Operation) (member : operation ∈ left) :
      ∀ effect ∈ second, effect.event? ≠ some operation.event := by
    intro effect inside same
    have listed : operation.event ∈ second.filterMap Effect.event? :=
      List.mem_filterMap.mpr ⟨effect, inside, same⟩
    rw [after.events] at listed
    obtain ⟨other, there, equal⟩ := List.mem_map.mp listed
    exact different operation member other there equal.symm
  constructor
  · rw [List.filterMap_append, before.events, after.events, List.map_append]
  · intro operation member
    rcases List.mem_append.mp member with inside | outside
    · exact (before.counts operation inside).append (apart operation inside)
    · exact (after.counts operation outside).prepend
  · intro alone operation member slot written
    rcases List.mem_append.mp member with inside | outside
    · exact (before.writes alone operation inside slot written).append (apart operation inside)
    · exact (after.writes alone operation outside slot written).prepend
  · intro operation member slot locked
    rcases List.mem_append.mp member with inside | outside
    · exact (before.locks operation inside slot locked).append (apart operation inside)
    · exact (after.locks operation outside slot locked).prepend
  · intro operation member
    rcases List.mem_append.mp member with inside | outside
    · exact before.late operation inside
    · exact after.late operation outside

end Realized

/-- Effects that only track slots, all of the given ones among them. -/
structure Tracks (generation : Generation) (event : Event) (onRead : Bool) (effects : List Effect)
    (slots : List Slot) : Prop where
  quiet : Quiet effects
  covers : ∀ slot ∈ slots, ∃ effect ∈ effects, effect.Covers generation event onRead slot

namespace Tracks

variable {generation : Generation} {event : Event} {onRead : Bool}

theorem nil : Tracks generation event onRead [] [] where
  quiet := .nil
  covers := fun _ member => absurd member List.not_mem_nil

/-- Two series of effects track the slots of both. -/
theorem append {first second : List Effect} {left right : List Slot}
    (before : Tracks generation event onRead first left)
    (after : Tracks generation event onRead second right) :
    Tracks generation event onRead (first ++ second) (left ++ right) where
  quiet := before.quiet.append after.quiet
  covers := by
    intro slot member
    rcases List.mem_append.mp member with inside | outside
    · obtain ⟨effect, there, covers⟩ := before.covers slot inside
      exact ⟨effect, List.mem_append_left _ there, covers⟩
    · obtain ⟨effect, there, covers⟩ := after.covers slot outside
      exact ⟨effect, List.mem_append_right _ there, covers⟩

/-- What is tracked for each item of a list is tracked for all of them. -/
theorem flatten {α : Type} {items : List α} (slotsOf : α → List Slot)
    {compute : α → Except Fault (List Effect)} {effects : List (List Effect)}
    (computed : items.mapM compute = .ok effects)
    (each : ∀ item found, compute item = .ok found →
      Tracks generation event onRead found (slotsOf item)) :
    Tracks generation event onRead effects.flatten (items.flatMap slotsOf) := by
  have all := Outcome.mapM_eq_ok.mp computed
  induction all with
  | nil => exact nil
  | cons first _ ih =>
      rw [List.flatten_cons, List.flatMap_cons]
      exact (each _ _ first).append (ih (Outcome.mapM_eq_ok.mpr ‹_›))

end Tracks

/-- Slots that all lie inside of the file are the ones that are found there. -/
theorem resolved_of_sequenceSlots {slots : List (Except Fault Slot)} {found : List Slot}
    (inside : sequenceSlots slots = .ok found) : resolved slots = found := by
  have all := Outcome.mapM_eq_ok.mp inside
  induction all with
  | nil => rfl
  | @cons slot value rest values first _ ih =>
      have here : slot = .ok value := first
      subst here
      change value :: resolved rest = value :: values
      rw [ih (Outcome.mapM_eq_ok.mpr ‹_›)]

/-- The slots inside of the file may be collected item by item. -/
theorem resolved_flatMap {α : Type} (items : List α) (slotsOf : α → List (Except Fault Slot)) :
    resolved (items.flatMap slotsOf) = items.flatMap fun item => resolved (slotsOf item) :=
  List.filterMap_flatMap

section Reading

variable {generation : Generation} {instr : Instr} {event : Event}

/-- Tracking a register tracks all its slots. -/
theorem tracks_of_trackRegister {register : Register} {cls : RegisterClass} {onRead : Bool}
    {loads : LoadKind} {cycles : Int} {forceLinear : Bool} {effect : Effect}
    (tracked : Effect.trackRegister generation register cls event onRead loads cycles forceLinear =
      .ok effect) :
    Tracks generation event onRead [effect] (resolved (slotsFrom register cls.size)) := by
  obtain ⟨slots, inside, done⟩ := Outcome.bind_eq_ok.mp tracked
  cases done
  rw [resolved_of_sequenceSlots inside]
  constructor
  · intro other member
    rw [List.mem_singleton.mp member]
    rfl
  · intro slot member
    exact ⟨_, List.mem_singleton_self _, slots, _, loads, cycles, rfl, member⟩

/-- Locking an operand tracks all its slots, and only writes have to wait. -/
theorem tracks_of_lock {operand : Operand} {loads : LoadKind} {effects : List Effect}
    (locked : Effect.lock generation operand event loads = .ok effects) :
    Tracks generation event false effects (resolved operand.slots) := by
  cases operand with
  | reg register cls =>
      obtain ⟨effect, tracked, done⟩ := Outcome.bind_eq_ok.mp locked
      cases done
      exact tracks_of_trackRegister tracked
  | const value =>
      cases locked
      exact .nil
  | undef =>
      cases locked
      exact .nil

/-- The registers of a single definition are tracked. -/
theorem tracks_of_defineFirst {loads : LoadKind} {effects : List Effect}
    (defined : Effect.defineFirst generation instr event loads = .ok effects) :
    Quiet effects ∧ (instr.definitions.length ≤ 1 →
      Tracks generation event true effects (resolved instr.writes)) := by
  unfold Effect.defineFirst at defined
  split at defined
  · rename_i undefined
    cases defined
    refine ⟨Quiet.nil, ?_⟩
    intro _
    unfold Instr.writes
    rw [undefined]
    exact .nil
  · rename_i definition others defines
    obtain ⟨effect, tracked, done⟩ := Outcome.bind_eq_ok.mp defined
    cases done
    have tracks := tracks_of_trackRegister tracked
    refine ⟨tracks.quiet, ?_⟩
    intro single
    unfold Instr.writes
    rw [defines] at single ⊢
    have alone : others = [] := by simpa using single
    rw [alone, List.flatMap_singleton]
    exact tracks

/-- One operation that is counted before its registers are tracked. -/
theorem Realized.of_head {operation : Operation} {head : Effect} {tracks : List Effect}
    {single : Prop} (counted : head.operation? = some (operation.event, operation.sync))
    (quiet : Quiet tracks)
    (writes : single → Tracks generation operation.event true tracks operation.writes)
    (locks : Tracks generation operation.event false tracks operation.locks)
    (late : operation.locks ≠ [] → (generation.counted .exp).holds operation.event = true) :
    Realized generation (head :: tracks) [operation] single := by
  refine Realized.of_heads [head] ?_ ?_ quiet ?_ ?_ ?_
  · simp [counted]
  · simp
  · intro alone other member
    rw [List.mem_singleton.mp member]
    exact (writes alone).covers
  · intro other member
    rw [List.mem_singleton.mp member]
    exact locks.covers
  · intro other member
    rw [List.mem_singleton.mp member]
    exact late

/-- The operation of an access whose result goes to the first definition. -/
theorem Realized.of_access (more : List Effect) {head : Effect} {result : List Effect}
    {loads : LoadKind} {sync : Sync} (counted : head.operation? = some (event, sync))
    (defined : Effect.defineFirst generation instr event loads = .ok result)
    (quiet : Quiet more) :
    Realized generation (head :: (result ++ more))
      [{ event, sync, writes := resolved instr.writes }] (instr.definitions.length ≤ 1) := by
  obtain ⟨silent, tracks⟩ := tracks_of_defineFirst defined
  apply Realized.of_head counted (silent.append quiet)
  · intro single
    have untracked : Tracks generation event true more [] := ⟨quiet, nofun⟩
    simpa using (tracks single).append untracked
  · exact ⟨silent.append quiet, nofun⟩
  · exact fun locked => absurd rfl locked

/-- Exports are counted on the export counter. -/
theorem counted_exportEvent (target : Nat) :
    (generation.counted .exp).holds (Effect.exportEvent target) = true := by
  unfold Effect.exportEvent
  split
  · exact generation.holds_counted .exp .expMrtNull
  · split
    · exact generation.holds_counted .exp .expPos
    · exact generation.holds_counted .exp .expParam

/-- An export reads the registers of its enabled channels late. -/
theorem operationsOf_of_export (encoding : instr.encoding = .exp) {target enabledMask : Nat}
    {compressed done : Bool}
    (payload : instr.payload = .exportTo target enabledMask compressed done) :
    operationsOf generation instr =
      [{ event := Effect.exportEvent target,
         locks := resolved ((Effect.exportOperands enabledMask compressed).flatMap fun position =>
           (instr.operands[position]?.map Operand.slots).getD []) ++
             resolved Effect.execOperand.slots }] := by
  unfold operationsOf
  rw [encoding, payload]

/-- An export is counted, and the registers that it reads are locked. -/
theorem realized_of_ofExport {effects : List Effect} (encoding : instr.encoding = .exp)
    (read : Effect.ofExport generation instr = .ok effects) :
    Realized generation effects (operationsOf generation instr)
      (instr.definitions.length ≤ 1) := by
  unfold Effect.ofExport at read
  split at read
  · rename_i target enabledMask compressed done payload
    obtain ⟨locks, locking, read⟩ := Outcome.bind_eq_ok.mp read
    obtain ⟨lanes, laning, read⟩ := Outcome.bind_eq_ok.mp read
    cases read
    have locked := Tracks.flatten (fun position =>
      resolved ((instr.operands[position]?.map Operand.slots).getD [])) locking (by
        intro position found computed
        split at computed
        · rename_i operand present
          rw [present]
          exact tracks_of_lock computed
        · cases computed)
    have whole := locked.append (tracks_of_lock laning)
    rw [operationsOf_of_export encoding payload, resolved_flatMap]
    exact Realized.of_head rfl whole.quiet (fun _ => ⟨whole.quiet, nofun⟩) whole
      fun _ => counted_exportEvent target
  · cases read

/-- An access to the data shares is counted; one to the global share locks registers too. -/
theorem realized_of_ofDataShare {effects : List Effect} (encoding : instr.encoding = .ds)
    (read : Effect.ofDataShare generation instr = .ok effects) :
    Realized generation effects (operationsOf generation instr)
      (instr.definitions.length ≤ 1) := by
  unfold Effect.ofDataShare at read
  unfold operationsOf
  rw [encoding]
  dsimp only
  split at read
  · rename_i global
    rw [if_pos global]
    obtain ⟨result, defining, read⟩ := Outcome.bind_eq_ok.mp read
    obtain ⟨locks, locking, read⟩ := Outcome.bind_eq_ok.mp read
    cases read
    obtain ⟨silent, written⟩ := tracks_of_defineFirst defining
    have locked := Tracks.flatten (fun operand => resolved operand.slots) locking
      fun _ _ computed => tracks_of_lock computed
    rw [List.append_assoc]
    refine Realized.of_heads [.count .gds instr.sync, .count .gdsGprLock {}] rfl (by simp)
      (silent.append locked.quiet) ?_ ?_ ?_
    · intro single operation member slot there
      rcases List.mem_pair.mp member with rfl | rfl
      · obtain ⟨effect, inside, covers⟩ := (written single).covers slot there
        exact ⟨effect, List.mem_append_left _ inside, covers⟩
      · exact absurd there List.not_mem_nil
    · intro operation member slot there
      rcases List.mem_pair.mp member with rfl | rfl
      · exact absurd there List.not_mem_nil
      · have listed : slot ∈ (instr.operands ++ [Effect.execOperand]).flatMap
            fun operand => resolved operand.slots := by
          rw [List.flatMap_append, List.flatMap_singleton, ← resolved_flatMap]
          exact there
        obtain ⟨effect, inside, covers⟩ := locked.covers slot listed
        exact ⟨effect, List.mem_append_right _ inside, covers⟩
    · intro operation member locks
      rcases List.mem_pair.mp member with rfl | rfl
      · exact absurd rfl locks
      · exact generation.holds_counted .exp .gdsGprLock
  · rename_i shared
    rw [if_neg shared]
    obtain ⟨result, defining, read⟩ := Outcome.bind_eq_ok.mp read
    cases read
    simpa using Realized.of_access [] rfl defining .nil

/-- No load is counted as a lock of registers. -/
theorem loadEvent_ne_vmemGprLock (kind : LoadKind) :
    loadEvent generation instr kind ≠ .vmemGprLock := by
  unfold loadEvent
  split
  · decide
  · split
    · split <;> decide
    · decide

/-- All encodings of vector memory have the same operations. -/
theorem operationsOf_of_vectorMemory
    (encoding : instr.encoding = .mubuf ∨ instr.encoding = .mtbuf ∨ instr.encoding = .mimg ∨
      instr.encoding = .global ∨ instr.encoding = .scratch) :
    operationsOf generation instr = vectorMemoryOperations generation instr := by
  unfold operationsOf
  rcases encoding with found | found | found | found | found <;> simp only [found]

/-- An access to vector memory is one operation; on GFX6 storing from many registers locks them as
well. -/
theorem vectorMemoryOperations_eq :
    vectorMemoryOperations generation instr =
      { event := loadEvent generation instr (loadKind instr), sync := instr.sync,
        writes := resolved instr.writes } ::
        ((if generation = .gfx6 then Effect.storeData? instr else none).map fun data =>
          { event := .vmemGprLock, locks := resolved data.slots : Operation }).toList := by
  unfold vectorMemoryOperations
  dsimp only
  cases (if generation = .gfx6 then Effect.storeData? instr else none) <;> rfl

/-- An access to vector memory is counted, and its registers are tracked. -/
theorem realized_of_ofVectorMemory {effects : List Effect}
    (encoding : instr.encoding = .mubuf ∨ instr.encoding = .mtbuf ∨ instr.encoding = .mimg ∨
      instr.encoding = .global ∨ instr.encoding = .scratch)
    (read : Effect.ofVectorMemory generation instr = .ok effects) :
    Realized generation effects (operationsOf generation instr)
      (instr.definitions.length ≤ 1) := by
  obtain ⟨result, defining, read⟩ := Outcome.bind_eq_ok.mp read
  obtain ⟨late, locking, read⟩ := Outcome.bind_eq_ok.mp read
  cases read
  have counted :
      (Effect.count (loadEvent generation instr (loadKind instr)) instr.sync).operation? =
        some (loadEvent generation instr (loadKind instr), instr.sync) := rfl
  have access := Realized.of_access [] counted defining .nil
  rw [List.append_nil] at access
  rw [operationsOf_of_vectorMemory encoding, vectorMemoryOperations_eq]
  unfold Effect.lateLock at locking
  split at locking
  · rename_i data stored
    obtain ⟨locks, locked, done⟩ := Outcome.bind_eq_ok.mp locking
    cases done
    have tracks := tracks_of_lock locked
    have lock : Realized generation (.count .vmemGprLock {} :: locks)
        [{ event := .vmemGprLock, locks := resolved data.slots }] (instr.definitions.length ≤ 1) :=
      Realized.of_head rfl tracks.quiet (fun _ => ⟨tracks.quiet, nofun⟩) tracks
        fun _ => generation.holds_counted .exp .vmemGprLock
    rw [stored]
    refine access.append lock ?_
    intro operation member other after
    rw [List.mem_singleton.mp member, List.mem_singleton.mp after]
    exact loadEvent_ne_vmemGprLock _
  · rename_i nothing
    cases locking
    rw [nothing, List.append_nil]
    exact access

/-- The effects that are read off an instruction realize its operations. -/
theorem realized_of_ofInstr {effects : List Effect}
    (read : Effect.ofInstr generation instr = .ok effects) :
    Realized generation effects (operationsOf generation instr)
      (instr.definitions.length ≤ 1) := by
  unfold Effect.ofInstr at read
  split at read
  case h_1 encoding => exact realized_of_ofExport encoding read
  case h_2 encoding =>
    obtain ⟨result, defining, done⟩ := Outcome.bind_eq_ok.mp read
    cases done
    unfold operationsOf
    rw [encoding]
    have counted : (if generation < .gfx10 ∧ !instr.definitions.isEmpty then
        Effect.flatLoad instr.sync else .count .flat instr.sync).operation? =
          some (.flat, instr.sync) := by
      split <;> rfl
    simpa using Realized.of_access [] counted defining .nil
  case h_3 encoding =>
    obtain ⟨result, defining, done⟩ := Outcome.bind_eq_ok.mp read
    cases done
    unfold operationsOf
    rw [encoding]
    apply Realized.of_access _ rfl defining
    split
    · intro effect member
      rw [List.mem_singleton.mp member]
      rfl
    · exact .nil
  case h_4 encoding => exact realized_of_ofDataShare encoding read
  case h_5 encoding =>
    unfold Effect.ofDirectLoad at read
    split at read
    · cases read
    · obtain ⟨result, defining, done⟩ := Outcome.bind_eq_ok.mp read
      cases done
      unfold operationsOf
      rw [encoding]
      simpa using Realized.of_access [] rfl defining .nil
  case h_6 encoding => exact realized_of_ofVectorMemory (by simp [encoding]) read
  case h_7 encoding => exact realized_of_ofVectorMemory (by simp [encoding]) read
  case h_8 encoding => exact realized_of_ofVectorMemory (by simp [encoding]) read
  case h_9 encoding => exact realized_of_ofVectorMemory (by simp [encoding]) read
  case h_10 encoding => exact realized_of_ofVectorMemory (by simp [encoding]) read
  case h_11 encoding =>
    unfold operationsOf
    rw [encoding]
    dsimp only
    split at read
    · rename_i message
      rw [if_pos message]
      cases read
      exact Realized.of_head rfl .nil (fun _ => .nil) .nil fun locked => absurd rfl locked
    · rename_i other
      rw [if_neg other]
      cases read
      exact .nil
  case h_12 encoding =>
    unfold operationsOf
    rw [encoding]
    dsimp only
    split at read
    · rename_i message
      rw [if_pos message]
      unfold Effect.ofMessageReply at read
      split at read
      · cases read
      · obtain ⟨result, defining, done⟩ := Outcome.bind_eq_ok.mp read
        cases done
        simpa using Realized.of_access [] rfl defining .nil
    · rename_i other
      rw [if_neg other]
      cases read
      exact .nil
  case h_13 =>
    cases read
    have quiet : operationsOf generation instr = [] := by
      unfold operationsOf
      split <;> simp_all
    rw [quiet]
    exact .nil

end Reading

section Room

variable {generation : Generation}

/-- By how much effects add to the room of operations of an event. -/
def advance (generation : Generation) (event : Event) (effects : List Effect) : Nat :=
  if generation.isUnordered (.single event) then 0
  else effects.countP fun effect => effect.event? = some event

/-- The room grows effect by effect. -/
theorem advance_cons (event : Event) (effect : Effect) (effects : List Effect) :
    advance generation event (effect :: effects) =
      advance generation event [effect] + advance generation event effects := by
  unfold advance
  split
  · rfl
  · rw [← List.singleton_append, List.countP_append]

/-- Effects that count other events leave the room as it is. -/
theorem advance_eq_zero {event : Event} {effects : List Effect}
    (others : ∀ effect ∈ effects, effect.event? ≠ some event) :
    advance generation event effects = 0 := by
  unfold advance
  split
  · rfl
  · rw [List.countP_eq_zero]
    intro effect member
    simpa using others effect member

/-- An operation is outstanding on every counter that counts its event. -/
theorem mem_tokens {operation : Operation} {token : Token} :
    token ∈ operation.tokens generation ↔ token.operation = operation ∧
      (generation.counted token.counter).holds operation.event = true := by
  unfold Operation.tokens
  simp only [List.mem_map, Counters.mem_toList, Generation.holds_countersOf]
  constructor
  · rintro ⟨counter, counted, rfl⟩
    exact ⟨rfl, counted⟩
  · rintro ⟨rfl, counted⟩
    exact ⟨token.counter, counted, rfl⟩

/-- An operation is once on every counter of its event. -/
theorem countP_tokens {token : Token}
    (counted : (generation.counted token.counter).holds token.operation.event = true)
    (operation : Operation) :
    (operation.tokens generation).countP token.sharesQueue =
      if operation.event = token.operation.event then 1 else 0 := by
  unfold Operation.tokens
  rw [List.countP_map]
  split
  · rename_i same
    have pick : token.sharesQueue ∘ (fun counter => { operation, counter : Token }) =
        fun counter => counter == token.counter := by
      funext counter
      simp [Token.sharesQueue, same, eq_comm, beq_eq_decide]
    have once : (generation.countersOf operation.event).toList.Nodup :=
      List.Nodup.filter _ (by decide)
    have there : token.counter ∈ (generation.countersOf operation.event).toList := by
      rw [Counters.mem_toList, Generation.holds_countersOf, same]
      exact counted
    rw [pick]
    exact List.count_eq_one_of_mem once there
  · rename_i different
    rw [List.countP_eq_zero]
    intro counter _
    simp [Token.sharesQueue, Ne.symm different]

/-- Operations that are issued add to the room of another one what their effects count of its
event. -/
theorem room_tokens {operations : List Operation} {effects : List Effect} {single : Prop}
    (realized : Realized generation effects operations single) {token : Token}
    (counted : (generation.counted token.counter).holds token.operation.event = true) :
    room generation token (operations.flatMap (Operation.tokens generation)) =
      advance generation token.operation.event effects := by
  have tokens (operations : List Operation) :
      (operations.flatMap (Operation.tokens generation)).countP token.sharesQueue =
        (operations.map Operation.event).count token.operation.event := by
    induction operations with
    | nil => rfl
    | cons operation rest ih =>
        rw [List.flatMap_cons, List.countP_append, ih, countP_tokens counted, List.map_cons,
          List.count_cons, Nat.add_comm]
        simp
  unfold room advance Token.isUnordered
  rw [tokens, ← realized.events]
  split
  · rfl
  · rw [List.count_filterMap]
    apply List.countP_congr
    intro effect _
    simp

end Room

end WaveHazard.Hazard
