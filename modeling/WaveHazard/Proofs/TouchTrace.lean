import Mathlib.Order.Fin.Basic
import WaveHazard.Proofs.Launches

/-! # The operations that touch a register

A run of instructions is a trace of operations, each with the registers it touches: those of the
first result, and those that stay locked until the operation has read them. From GFX10 on the
effects of an instruction follow that trace exactly: they count its operations, and then let
precisely the registers that are touched wait for them.
-/

namespace WaveHazard.Hazard

open Machine Wait

variable {generation : Generation} {instr : Instr} {event : Event} {effects : List Effect}

/-- An operation of an event and the register slots it touches. -/
structure Touch where
  event : Event
  slots : List Slot
deriving DecidableEq, Inhabited

/-- The register slots of the first definition. -/
def firstResult (instr : Instr) : List Slot :=
  match instr.definitions with
  | [] => []
  | definition :: _ => resolved definition.slots

/-- The registers that an operation of an instruction touches: of its results only the first one,
and whatever it locks. -/
def Operation.touch (instr : Instr) (operation : Operation) : Touch where
  event := operation.event
  slots := operation.writes.filter (firstResult instr).contains ++ operation.locks

/-- The operations of an instruction in order, with what they touch. -/
def touchesOf (generation : Generation) (instr : Instr) : List Touch :=
  (operationsOf generation instr).map (Operation.touch instr)

/-- The slots of the first definition are among all that are written. -/
theorem mem_firstResult_filter {slot : Slot} :
    slot ∈ (resolved instr.writes).filter (firstResult instr).contains ↔
      slot ∈ firstResult instr := by
  rw [List.mem_filter, List.contains_iff_mem, and_iff_right_iff_imp]
  intro first
  unfold firstResult at first
  split at first
  · cases first
  · rename_i definition others listed
    rw [Instr.writes, resolved_flatMap, listed, List.flatMap_cons]
    exact List.mem_append_left _ first

/-- The effect lets slots wait for an operation of an event. -/
def Effect.LetsWait (generation : Generation) (event : Event) (found : List Slot)
    (effect : Effect) : Prop :=
  ∃ logical onRead loads,
    effect = .track found (.ofEvent generation event logical onRead loads 0)

/-- The effects let precisely the given slots wait for an operation of an event. -/
structure Marks (generation : Generation) (event : Event) (effects : List Effect)
    (slots : List Slot) : Prop where
  only : ∀ effect ∈ effects, ∃ found, effect.LetsWait generation event found ∧
    ∀ slot ∈ found, slot ∈ slots
  all : ∀ slot ∈ slots, ∃ effect ∈ effects, ∃ found,
    effect.LetsWait generation event found ∧ slot ∈ found

namespace Marks

theorem nil : Marks generation event [] [] where
  only _ member := absurd member List.not_mem_nil
  all _ member := absurd member List.not_mem_nil

/-- Two series of effects mark the slots of both. -/
theorem append {first second : List Effect} {left right : List Slot}
    (before : Marks generation event first left) (after : Marks generation event second right) :
    Marks generation event (first ++ second) (left ++ right) where
  only effect member := by
    rcases List.mem_append.mp member with mine | theirs
    · obtain ⟨found, lets, inside⟩ := before.only effect mine
      exact ⟨found, lets, fun slot there => List.mem_append_left _ (inside slot there)⟩
    · obtain ⟨found, lets, inside⟩ := after.only effect theirs
      exact ⟨found, lets, fun slot there => List.mem_append_right _ (inside slot there)⟩
  all slot member := by
    rcases List.mem_append.mp member with mine | theirs
    · obtain ⟨effect, there, marked⟩ := before.all slot mine
      exact ⟨effect, List.mem_append_left _ there, marked⟩
    · obtain ⟨effect, there, marked⟩ := after.all slot theirs
      exact ⟨effect, List.mem_append_right _ there, marked⟩

/-- Only the members of a list of marked slots matter. -/
theorem congr {slots others : List Slot} (marks : Marks generation event effects slots)
    (same : ∀ slot, slot ∈ slots ↔ slot ∈ others) : Marks generation event effects others where
  only effect member := by
    obtain ⟨found, lets, inside⟩ := marks.only effect member
    exact ⟨found, lets, fun slot there => (same slot).mp (inside slot there)⟩
  all slot member := marks.all slot ((same slot).mpr member)

/-- What is marked for each item of a list is marked for all of them. -/
theorem flatten {α : Type} {items : List α} (slotsOf : α → List Slot)
    {compute : α → Except Fault (List Effect)} {found : List (List Effect)}
    (computed : items.mapM compute = .ok found)
    (each : ∀ item effects, compute item = .ok effects →
      Marks generation event effects (slotsOf item)) :
    Marks generation event found.flatten (items.flatMap slotsOf) := by
  have all := Outcome.mapM_eq_ok.mp computed
  induction all with
  | nil => exact nil
  | cons first _ ih =>
      rw [List.flatten_cons, List.flatMap_cons]
      exact (each _ _ first).append (ih (Outcome.mapM_eq_ok.mpr ‹_›))

/-- Tracking a register marks its slots. -/
theorem of_trackRegister {register : Register} {cls : RegisterClass} {onRead : Bool}
    {loads : LoadKind} {forceLinear : Bool} {effect : Effect}
    (tracked : Effect.trackRegister generation register cls event onRead loads 0 forceLinear =
      .ok effect) :
    Marks generation event [effect] (resolved (slotsFrom register cls.size)) := by
  obtain ⟨slots, inside, done⟩ := Outcome.bind_eq_ok.mp tracked
  cases done
  rw [resolved_of_sequenceSlots inside]
  refine ⟨List.forall_mem_singleton.mpr ⟨slots, ⟨_, _, _, rfl⟩, fun _ => id⟩, fun slot member => ?_⟩
  exact ⟨_, List.mem_singleton_self _, slots, ⟨_, _, _, rfl⟩, member⟩

/-- Locking an operand marks its slots. -/
theorem of_lock {operand : Operand} {loads : LoadKind}
    (locked : Effect.lock generation operand event loads = .ok effects) :
    Marks generation event effects (resolved operand.slots) := by
  cases operand with
  | reg register cls =>
      obtain ⟨effect, tracked, done⟩ := Outcome.bind_eq_ok.mp locked
      cases done
      exact of_trackRegister tracked
  | const value =>
      cases locked
      exact nil
  | undef =>
      cases locked
      exact nil

/-- The first definition alone is marked. -/
theorem of_defineFirst {loads : LoadKind}
    (defined : Effect.defineFirst generation instr event loads = .ok effects) :
    Marks generation event effects (firstResult instr) := by
  unfold Effect.defineFirst at defined
  unfold firstResult
  cases listed : instr.definitions with
  | nil =>
      rw [listed] at defined
      cases defined
      exact nil
  | cons definition others =>
      rw [listed] at defined
      obtain ⟨effect, tracked, done⟩ := Outcome.bind_eq_ok.mp defined
      cases done
      exact of_trackRegister tracked

end Marks

/-- The effects count some operations and then let precisely the slots wait that these touch. A
scalar store may be noted on top. -/
structure Traced (generation : Generation) (touches : List Touch) (heads : List (Event × Sync))
    (tracks : List Effect) : Prop where
  counts : heads.map Prod.fst = touches.map Touch.event
  only : ∀ effect ∈ tracks, effect = .scalarStore ∨ ∃ touch ∈ touches, ∃ found,
    effect.LetsWait generation touch.event found ∧ ∀ slot ∈ found, slot ∈ touch.slots
  all : ∀ touch ∈ touches, ∀ slot ∈ touch.slots, ∃ effect ∈ tracks, ∃ found,
    effect.LetsWait generation touch.event found ∧ slot ∈ found

/-- The effect that counts an operation. -/
def countOf (head : Event × Sync) : Effect := .count head.1 head.2

namespace Traced

theorem nil : Traced generation [] [] [] where
  counts := rfl
  only _ member := absurd member List.not_mem_nil
  all _ member := absurd member List.not_mem_nil

/-- One operation, and perhaps a store that is noted. -/
theorem of_marks {slots : List Slot} (sync : Sync) (marks : Marks generation event effects slots)
    (stores : List Effect) (noted : ∀ effect ∈ stores, effect = .scalarStore) :
    Traced generation [{ event, slots }] [(event, sync)] (effects ++ stores) where
  counts := rfl
  only effect member := by
    rcases List.mem_append.mp member with tracks | store
    · exact .inr ⟨_, List.mem_singleton_self _, marks.only effect tracks⟩
    · exact .inl (noted effect store)
  all := by
    refine List.forall_mem_singleton.mpr fun slot member => ?_
    obtain ⟨effect, there, marked⟩ := marks.all slot member
    exact ⟨effect, List.mem_append_left _ there, marked⟩

/-- Two operations that are both counted before registers wait for either. -/
theorem of_two {other : Event} {others : List Effect} {slots more : List Slot} (first second : Sync)
    (marks : Marks generation event effects slots) (also : Marks generation other others more) :
    Traced generation [{ event, slots }, { event := other, slots := more }]
      [(event, first), (other, second)] (effects ++ others) where
  counts := rfl
  only effect member := by
    rcases List.mem_append.mp member with mine | theirs
    · exact .inr ⟨_, List.mem_cons_self, marks.only effect mine⟩
    · exact .inr ⟨_, List.mem_cons_of_mem _ List.mem_cons_self, also.only effect theirs⟩
  all := by
    refine List.forall_mem_cons.mpr ⟨fun slot member => ?_,
      List.forall_mem_singleton.mpr fun slot member => ?_⟩
    · obtain ⟨effect, there, marked⟩ := marks.all slot member
      exact ⟨effect, List.mem_append_left _ there, marked⟩
    · obtain ⟨effect, there, marked⟩ := also.all slot member
      exact ⟨effect, List.mem_append_right _ there, marked⟩

end Traced

/-- The operation of an access writes to the first result. -/
theorem marks_of_result {loads : LoadKind} (sync : Sync)
    (defined : Effect.defineFirst generation instr event loads = .ok effects) :
    Marks generation event effects
      (Operation.touch instr { event, sync, writes := resolved instr.writes }).slots := by
  refine (Marks.of_defineFirst defined).congr fun slot => ?_
  change _ ↔ slot ∈ (resolved instr.writes).filter _ ++ []
  rw [List.append_nil, mem_firstResult_filter]

section Following

/-- What the effects of an instruction have to be like. -/
def FollowsTrace (generation : Generation) (instr : Instr) (effects : List Effect) : Prop :=
  ∃ heads tracks, effects = heads.map countOf ++ tracks ∧
    Traced generation (touchesOf generation instr) heads tracks

/-- An access counts one operation, and its first result waits for it. -/
theorem follow_of_access {loads : LoadKind} {result : List Effect} (stores : List Effect)
    (sync : Sync) (defined : Effect.defineFirst generation instr event loads = .ok result)
    (noted : ∀ effect ∈ stores, effect = .scalarStore)
    (operation : operationsOf generation instr =
      [{ event, sync, writes := resolved instr.writes }]) :
    FollowsTrace generation instr (.count event sync :: (result ++ stores)) := by
  refine ⟨[(event, sync)], result ++ stores, rfl, ?_⟩
  rw [touchesOf, operation]
  exact .of_marks sync (marks_of_result sync defined) stores noted

/-- The effects of an export follow its operation. -/
theorem follow_of_ofExport (encoding : instr.encoding = .exp)
    (read : Effect.ofExport generation instr = .ok effects) :
    FollowsTrace generation instr effects := by
  unfold Effect.ofExport at read
  split at read
  · rename_i target enabledMask compressed done payload
    obtain ⟨locks, locking, read⟩ := Outcome.bind_eq_ok.mp read
    obtain ⟨lanes, laning, read⟩ := Outcome.bind_eq_ok.mp read
    cases read
    have locked := Marks.flatten (fun position =>
      resolved ((instr.operands[position]?.map Operand.slots).getD [])) locking (by
        intro position found computed
        split at computed
        · rename_i operand present
          rw [present]
          exact .of_lock computed
        · cases computed)
    refine ⟨[(Effect.exportEvent target, {})], locks.flatten ++ lanes, rfl, ?_⟩
    rw [touchesOf, operationsOf_of_export encoding payload, resolved_flatMap,
      ← List.append_nil (locks.flatten ++ lanes)]
    exact .of_marks {} (locked.append (.of_lock laning)) [] (by simp)
  · cases read

/-- The effects of the data shares follow their operations. -/
theorem follow_of_ofDataShare (encoding : instr.encoding = .ds)
    (read : Effect.ofDataShare generation instr = .ok effects) :
    FollowsTrace generation instr effects := by
  unfold Effect.ofDataShare at read
  split at read
  · rename_i global
    obtain ⟨result, defined, read⟩ := Outcome.bind_eq_ok.mp read
    obtain ⟨locks, locking, read⟩ := Outcome.bind_eq_ok.mp read
    cases read
    have operations : operationsOf generation instr =
        [{ event := .gds, sync := instr.sync, writes := resolved instr.writes },
         { event := .gdsGprLock,
           locks := resolved instr.reads ++ resolved Effect.execOperand.slots }] := by
      unfold operationsOf
      rw [encoding]
      exact if_pos global
    have locked := Marks.flatten (fun operand : Operand => resolved operand.slots) locking
      fun _ _ computed => .of_lock computed
    rw [List.flatMap_append, List.flatMap_singleton, ← resolved_flatMap] at locked
    refine ⟨[(.gds, instr.sync), (.gdsGprLock, {})], result ++ locks.flatten, by simp [countOf], ?_⟩
    rw [touchesOf, operations]
    exact .of_two instr.sync {} (marks_of_result instr.sync defined) locked
  · rename_i shared
    obtain ⟨result, defined, done⟩ := Outcome.bind_eq_ok.mp read
    cases done
    have operation : operationsOf generation instr =
        [{ event := .lds, sync := instr.sync, writes := resolved instr.writes }] := by
      unfold operationsOf
      rw [encoding]
      exact if_neg shared
    simpa using follow_of_access [] instr.sync defined (by simp) operation

/-- From GFX10 on the effects of vector memory follow its one operation. -/
theorem follow_of_ofVectorMemory (recent : .gfx10 ≤ generation)
    (encoding : instr.encoding = .mubuf ∨ instr.encoding = .mtbuf ∨ instr.encoding = .mimg ∨
      instr.encoding = .global ∨ instr.encoding = .scratch)
    (read : Effect.ofVectorMemory generation instr = .ok effects) :
    FollowsTrace generation instr effects := by
  obtain ⟨result, defined, read⟩ := Outcome.bind_eq_ok.mp read
  obtain ⟨late, locking, done⟩ := Outcome.bind_eq_ok.mp read
  cases done
  have later : generation ≠ .gfx6 := by
    rintro rfl
    exact absurd recent (by decide)
  have unlocked : late = [] := by
    unfold Effect.lateLock at locking
    rw [if_neg later] at locking
    cases locking
    rfl
  have operation : operationsOf generation instr =
      [{ event := loadEvent generation instr (loadKind instr), sync := instr.sync,
         writes := resolved instr.writes }] := by
    rw [operationsOf_of_vectorMemory encoding, vectorMemoryOperations_eq, if_neg later]
    rfl
  rw [unlocked]
  exact follow_of_access [] instr.sync defined (by simp) operation

/-- From GFX10 on the effects of an instruction follow its operations. -/
theorem follow_of_ofInstr (recent : .gfx10 ≤ generation)
    (read : Effect.ofInstr generation instr = .ok effects) :
    FollowsTrace generation instr effects := by
  have ordered : ¬ generation < .gfx10 := by
    revert recent
    cases generation <;> decide
  unfold Effect.ofInstr at read
  split at read
  case h_1 encoding => exact follow_of_ofExport encoding read
  case h_2 encoding =>
    obtain ⟨result, defined, done⟩ := Outcome.bind_eq_ok.mp read
    cases done
    rw [if_neg fun loads => ordered loads.1]
    simpa using follow_of_access [] instr.sync defined (by simp)
      (by unfold operationsOf; rw [encoding])
  case h_3 encoding =>
    obtain ⟨result, defined, done⟩ := Outcome.bind_eq_ok.mp read
    cases done
    refine follow_of_access _ instr.sync defined ?_ (by unfold operationsOf; rw [encoding])
    intro effect member
    split at member
    · exact List.mem_singleton.mp member
    · cases member
  case h_4 encoding => exact follow_of_ofDataShare encoding read
  case h_5 encoding =>
    unfold Effect.ofDirectLoad at read
    split at read
    · cases read
    · obtain ⟨result, defined, done⟩ := Outcome.bind_eq_ok.mp read
      cases done
      simpa using follow_of_access [] instr.sync defined (by simp)
        (by unfold operationsOf; rw [encoding])
  case h_6 encoding => exact follow_of_ofVectorMemory recent (by simp [encoding]) read
  case h_7 encoding => exact follow_of_ofVectorMemory recent (by simp [encoding]) read
  case h_8 encoding => exact follow_of_ofVectorMemory recent (by simp [encoding]) read
  case h_9 encoding => exact follow_of_ofVectorMemory recent (by simp [encoding]) read
  case h_10 encoding => exact follow_of_ofVectorMemory recent (by simp [encoding]) read
  case h_11 encoding =>
    split at read
    · rename_i message
      cases read
      have operation : operationsOf generation instr = [{ event := .sendmsg }] := by
        unfold operationsOf
        rw [encoding]
        exact if_pos message
      refine ⟨[(.sendmsg, {})], [], rfl, ?_⟩
      rw [touchesOf, operation]
      exact .of_marks {} .nil [] (by simp)
    · rename_i other
      cases read
      have operation : operationsOf generation instr = [] := by
        unfold operationsOf
        rw [encoding]
        exact if_neg other
      refine ⟨[], [], rfl, ?_⟩
      rw [touchesOf, operation]
      exact .nil
  case h_12 encoding =>
    split at read
    · rename_i message
      unfold Effect.ofMessageReply at read
      split at read
      · cases read
      · obtain ⟨result, defined, done⟩ := Outcome.bind_eq_ok.mp read
        cases done
        have operation : operationsOf generation instr =
            [{ event := .sendmsg, writes := resolved instr.writes }] := by
          unfold operationsOf
          rw [encoding]
          exact if_pos message
        simpa using follow_of_access [] {} defined (by simp) operation
    · rename_i other
      cases read
      have operation : operationsOf generation instr = [] := by
        unfold operationsOf
        rw [encoding]
        exact if_neg other
      refine ⟨[], [], rfl, ?_⟩
      rw [touchesOf, operation]
      exact .nil
  case h_13 =>
    cases read
    have operation : operationsOf generation instr = [] := by
      unfold operationsOf
      split <;> simp_all
    refine ⟨[], [], rfl, ?_⟩
    rw [touchesOf, operation]
    exact .nil

end Following

end WaveHazard.Hazard
