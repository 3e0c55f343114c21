import WaveHazard.Proofs.Launches
import WaveHazard.Proofs.StateOrder

/-! # The effects of an instruction in order

What an instruction sets in motion is a list of effects. The list counts an operation before it lets
registers wait for it, and it counts only what the generation has a counter for: `Effect.Follows`.
Whatever is kept by effects in that order is kept by every instruction.
-/

namespace WaveHazard

open Machine Wait

/-- Whether instructions of the generation set operations of the event in motion. -/
def Machine.Generation.issues (generation : Generation) : Hazard.Event → Bool
  | .vmemStore => .gfx10 ≤ generation
  | .vmemSample | .vmemBvh => .gfx12 ≤ generation
  | .valu | .trans | .salu => false
  | _ => true

namespace Hazard

variable {generation : Generation}

namespace Effect

/-- With the known counters in flight, the effects count only operations that the generation has a
counter for, and registers wait only for what has been counted by then. -/
inductive Follows (generation : Generation) : Counters → List Effect → Prop where
  | nil (known : Counters) : Follows generation known []
  | count {known : Counters} {event : Event} (sync : Sync) {rest : List Effect} :
      generation.issues event = true →
        Follows generation (known ||| generation.countersOf event) rest →
          Follows generation known (.count event sync :: rest)
  | flatLoad {known : Counters} (sync : Sync) {rest : List Effect} :
      Follows generation (known ||| generation.countersOf .flat) rest →
        Follows generation known (.flatLoad sync :: rest)
  | track {known : Counters} (slots : List Slot) {event : Event} (logical onRead : Bool)
      (loads : LoadKind) {rest : List Effect} :
      generation.issues event = true → generation.countersOf event ≤ known →
        Follows generation known rest →
          Follows generation known
            (.track slots (.ofEvent generation event logical onRead loads 0) :: rest)
  | scalarStore {known : Counters} {rest : List Effect} :
      Follows generation known rest → Follows generation known (.scalarStore :: rest)

variable {known more : Counters} {effects others : List Effect} {instr : Instr} {event : Event}
  {loads : LoadKind}

/-- Effects may follow more counters in flight. -/
theorem Follows.mono (follows : Follows generation known effects) (below : known ≤ more) :
    Follows generation more effects := by
  have grow {counters known more : Counters} (below : known ≤ more) :
      known ||| counters ≤ more ||| counters := by
    obtain ⟨first, second⟩ := FlagSet.or_le_iff.mp (le_refl (more ||| counters))
    exact FlagSet.or_le_iff.mpr ⟨below.trans first, second⟩
  induction follows generalizing more with
  | nil known => exact .nil more
  | count sync issued _ ih => exact .count sync issued (ih (grow below))
  | flatLoad sync _ ih => exact .flatLoad sync (ih (grow below))
  | track slots logical onRead loads issued counted _ ih =>
      exact .track slots logical onRead loads issued (counted.trans below) (ih below)
  | scalarStore _ ih => exact .scalarStore (ih below)

/-- Two series of effects may follow each other. -/
theorem Follows.append (first : Follows generation known effects)
    (second : Follows generation known others) : Follows generation known (effects ++ others) := by
  induction first with
  | nil known => exact second
  | count sync issued _ ih => exact .count sync issued (ih (second.mono (FlagSet.le_or_left _ _)))
  | flatLoad sync _ ih => exact .flatLoad sync (ih (second.mono (FlagSet.le_or_left _ _)))
  | track slots logical onRead loads issued counted _ ih =>
      exact .track slots logical onRead loads issued counted (ih second)
  | scalarStore _ ih => exact .scalarStore (ih second)

/-- Behind an operation that is counted its counters are known. -/
theorem countersOf_le (generation : Generation) (known : Counters) (event : Event) :
    generation.countersOf event ≤ known ||| generation.countersOf event :=
  (FlagSet.or_le_iff.mp le_rfl).2

section Tracking

variable (issued : generation.issues event = true)
  (counted : generation.countersOf event ≤ known)

include issued counted

/-- Tracking a register counts nothing, and waits for known counters. -/
theorem follows_of_trackRegister {register : Register} {cls : RegisterClass} {onRead : Bool}
    {forceLinear : Bool} {effect : Effect}
    (tracked : trackRegister generation register cls event onRead loads 0 forceLinear =
      .ok effect) : Follows generation known [effect] := by
  obtain ⟨slots, _, done⟩ := Outcome.bind_eq_ok.mp tracked
  cases done
  exact .track slots _ _ _ issued counted (.nil known)

/-- Locking an operand counts nothing, and waits for known counters. -/
theorem follows_of_lock {operand : Operand}
    (locked : lock generation operand event loads = .ok effects) :
    Follows generation known effects := by
  unfold lock at locked
  split at locked
  · obtain ⟨effect, tracked, done⟩ := Outcome.bind_eq_ok.mp locked
    cases done
    exact follows_of_trackRegister issued counted tracked
  · cases locked
    exact .nil known

/-- Tracking the first definition counts nothing, and waits for known counters. -/
theorem follows_of_defineFirst
    (defined : defineFirst generation instr event loads = .ok effects) :
    Follows generation known effects := by
  unfold defineFirst at defined
  split at defined
  · cases defined
    exact .nil known
  · obtain ⟨effect, tracked, done⟩ := Outcome.bind_eq_ok.mp defined
    cases done
    exact follows_of_trackRegister issued counted tracked

end Tracking

/-- Several locks follow known counters if each of them does. -/
theorem follows_of_locks {α : Type} {items : List α} {lockItem : α → Except Fault (List Effect)}
    {locks : List (List Effect)} (locked : items.mapM lockItem = .ok locks)
    (each : ∀ item effects, lockItem item = .ok effects → Follows generation known effects) :
    Follows generation known locks.flatten := by
  have all : ∀ effects ∈ locks, Follows generation known effects := by
    intro effects listed
    obtain ⟨item, _, done⟩ := Outcome.mem_of_mapM_eq_ok locked listed
    exact each item effects done
  clear locked
  induction locks with
  | nil => exact .nil known
  | cons first rest ih =>
      obtain ⟨head, tail⟩ := List.forall_mem_cons.mp all
      exact head.append (ih tail)

/-- Every generation has exports of all kinds. -/
theorem issues_exportEvent (generation : Generation) (target : Nat) :
    generation.issues (exportEvent target) = true := by
  unfold exportEvent
  split
  · rfl
  · split <;> rfl

/-- A load is counted as an event that its generation has. -/
theorem issues_loadEvent (generation : Generation) (instr : Instr) (kind : LoadKind) :
    generation.issues (loadEvent generation instr kind) = true := by
  unfold loadEvent
  split
  · rename_i stores
    exact decide_eq_true stores.2
  · split
    · rename_i latest
      split <;> exact decide_eq_true latest.1
    · rfl

/-- The effects of an export are counted before its registers wait for them. -/
theorem follows_of_ofExport (read : ofExport generation instr = .ok effects) :
    Follows generation known effects := by
  unfold ofExport at read
  split at read
  · obtain ⟨locks, locked, read⟩ := Outcome.bind_eq_ok.mp read
    obtain ⟨lanes, masked, done⟩ := Outcome.bind_eq_ok.mp read
    cases done
    have issued := issues_exportEvent generation
    refine .count _ (issued _) ((follows_of_locks locked ?_).append
      (follows_of_lock (issued _) (countersOf_le _ _ _) masked))
    intro position effects done
    split at done
    · exact follows_of_lock (issued _) (countersOf_le _ _ _) done
    · cases done
  · cases read

/-- The effects of a flat access are counted before its registers wait for them. -/
theorem follows_of_ofFlat (read : ofFlat generation instr = .ok effects) :
    Follows generation known effects := by
  obtain ⟨result, defined, done⟩ := Outcome.bind_eq_ok.mp read
  cases done
  have result : Follows generation (known ||| generation.countersOf .flat) result :=
    follows_of_defineFirst rfl (countersOf_le _ _ _) defined
  split
  · exact .flatLoad _ result
  · exact .count _ rfl result

/-- The effects of scalar memory are counted before its registers wait for them. -/
theorem follows_of_ofScalarMemory (read : ofScalarMemory generation instr = .ok effects) :
    Follows generation known effects := by
  obtain ⟨result, defined, done⟩ := Outcome.bind_eq_ok.mp read
  cases done
  refine .count _ rfl (.append (follows_of_defineFirst rfl (countersOf_le _ _ _) defined) ?_)
  split
  · exact .scalarStore (.nil _)
  · exact .nil _

/-- The effects of the data shares are counted before their registers wait for them. -/
theorem follows_of_ofDataShare (read : ofDataShare generation instr = .ok effects) :
    Follows generation known effects := by
  unfold ofDataShare at read
  split at read
  · obtain ⟨result, defined, read⟩ := Outcome.bind_eq_ok.mp read
    obtain ⟨locks, locked, done⟩ := Outcome.bind_eq_ok.mp read
    cases done
    have early := (countersOf_le generation known .gds).trans
      (FlagSet.le_or_left _ (generation.countersOf .gdsGprLock))
    exact .count _ rfl (.count _ rfl (.append (follows_of_defineFirst rfl early defined)
      (follows_of_locks locked fun _ _ => follows_of_lock rfl (countersOf_le _ _ _))))
  · obtain ⟨result, defined, done⟩ := Outcome.bind_eq_ok.mp read
    cases done
    exact .count _ rfl (follows_of_defineFirst rfl (countersOf_le _ _ _) defined)

/-- A late read of a store is counted before its registers wait for it. -/
theorem follows_of_lateLock (read : lateLock generation instr = .ok effects) :
    Follows generation known effects := by
  unfold lateLock at read
  split at read
  · obtain ⟨locks, locked, done⟩ := Outcome.bind_eq_ok.mp read
    cases done
    exact .count _ rfl (follows_of_lock rfl (countersOf_le _ _ _) locked)
  · cases read
    exact .nil known

/-- The effects of vector memory are counted before its registers wait for them. -/
theorem follows_of_ofVectorMemory (read : ofVectorMemory generation instr = .ok effects) :
    Follows generation known effects := by
  obtain ⟨result, defined, read⟩ := Outcome.bind_eq_ok.mp read
  obtain ⟨late, locked, done⟩ := Outcome.bind_eq_ok.mp read
  cases done
  have issued := issues_loadEvent generation instr (loadKind instr)
  exact .count _ issued (.append (follows_of_defineFirst issued (countersOf_le _ _ _) defined)
    (follows_of_lateLock locked))

/-- Whatever an instruction sets in motion is counted before registers wait for it. -/
theorem follows_of_ofInstr (read : ofInstr generation instr = .ok effects) :
    Follows generation known effects := by
  unfold ofInstr at read
  split at read
  · exact follows_of_ofExport read
  · exact follows_of_ofFlat read
  · exact follows_of_ofScalarMemory read
  · exact follows_of_ofDataShare read
  · unfold ofDirectLoad at read
    split at read
    · cases read
    · obtain ⟨result, defined, done⟩ := Outcome.bind_eq_ok.mp read
      cases done
      exact .count _ rfl (follows_of_defineFirst rfl (countersOf_le _ _ _) defined)
  iterate 5 exact follows_of_ofVectorMemory read
  · split at read <;> cases read
    · exact .count _ rfl (.nil _)
    · exact .nil known
  · split at read
    · unfold ofMessageReply at read
      split at read
      · cases read
      · obtain ⟨result, defined, done⟩ := Outcome.bind_eq_ok.mp read
        cases done
        exact .count _ rfl (follows_of_defineFirst rfl (countersOf_le _ _ _) defined)
    · cases read
      exact .nil known
  · cases read
    exact .nil known

/-- The load of an argument is counted before its registers wait for it. -/
theorem follows_of_argument {definition : Definition} {effect : Effect}
    (defined : define generation definition .vmem ∅ 0 = .ok effect) :
    Follows generation known [.count .vmem {}, effect] :=
  .count _ rfl (follows_of_trackRegister rfl (countersOf_le _ _ _) defined)

/-- Arithmetic instructions have arithmetic events. -/
theorem isArithmetic_of_arithmeticEvent? (found : arithmeticEvent? instr = some event) :
    event.isArithmetic = true := by
  unfold arithmeticEvent? at found
  split at found
  · cases found
    rfl
  · split at found
    · cases found
      rfl
    · split at found <;> cases found
      rfl

/-- Arithmetic results are producers in the pipeline of their instruction. -/
theorem eq_track_of_arithmetic {latency : Int}
    (read : arithmetic generation instr latency = .ok effects) {effect : Effect}
    (member : effect ∈ effects) :
    ∃ event slots logical onRead loads, arithmeticEvent? instr = some event ∧
      effect = .track slots (.ofEvent generation event logical onRead loads latency) := by
  unfold arithmetic at read
  split at read
  · cases read
    cases member
  · rename_i event found
    obtain ⟨definition, _, defined⟩ := Outcome.mem_of_mapM_eq_ok read member
    obtain ⟨slots, _, done⟩ := Outcome.bind_eq_ok.mp defined
    cases done
    exact ⟨event, slots, _, _, _, found, rfl⟩

/-- Arithmetic results are tracked with the latency of the instruction. -/
theorem tracks_of_arithmetic {latency : Int}
    (read : arithmetic generation instr latency = .ok effects) :
    ∀ effect ∈ effects, ∃ slots event logical onRead loads, effect =
      .track slots (.ofEvent generation event logical onRead loads latency) ∧
        event.isArithmetic = true := by
  intro effect member
  obtain ⟨event, slots, logical, onRead, loads, found, same⟩ := eq_track_of_arithmetic read member
  exact ⟨slots, event, logical, onRead, loads, same, isArithmetic_of_arithmeticEvent? found⟩

/-- Every operation that is counted has a counter. -/
theorem issues_of_follows {known : Counters} {effects : List Effect}
    (follows : Follows generation known effects) {effect : Effect} (member : effect ∈ effects)
    {operation : Event × Sync} (counts : effect.operation? = some operation) :
    generation.issues operation.1 = true := by
  induction follows with
  | nil known => cases member
  | count sync issued _ ih =>
      rcases List.mem_cons.mp member with rfl | later
      · cases counts
        exact issued
      · exact ih later
  | flatLoad sync _ ih =>
      rcases List.mem_cons.mp member with rfl | later
      · cases counts
        rfl
      · exact ih later
  | track slots logical onRead loads _ _ _ ih =>
      rcases List.mem_cons.mp member with rfl | later
      · cases counts
      · exact ih later
  | scalarStore _ ih =>
      rcases List.mem_cons.mp member with rfl | later
      · cases counts
      · exact ih later

end Effect

end Hazard

end WaveHazard
