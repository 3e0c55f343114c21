import WaveHazard.Proofs.Occurrence
import WaveHazard.Proofs.RegisterView

/-! # A demand that is repeated

Once a state has been moved past the needs of an instruction, the instruction needs nothing more:
whatever had a cause before has been waited for, and the arithmetic producers of its operands have
finished. So demanding the same again yields an empty queue and leaves the state as it is.
-/

namespace WaveHazard

open Machine Wait

namespace Wait.Delay

variable {delay other : Delay}

/-- A delay within one that does nothing does nothing. -/
theorem isEmpty_of_le (near : delay.Near) (below : delay ≤ other) (empty : other.isEmpty = true) :
    delay.isEmpty = true := by
  obtain ⟨valu, trans, salu⟩ := near
  obtain ⟨closerValu, _, closerTrans, _, longer⟩ := below
  simp only [isEmpty, Bool.and_eq_true, beq_iff_eq] at empty ⊢
  omega

/-- After the longest latency of a delay all producers within it have finished. -/
theorem age_maxCycles_of_le (below : delay ≤ other) :
    delay.age false false other.maxCycles = ∅ := by
  obtain ⟨_, valu, _, trans, salu⟩ := below
  have empty : (∅ : Delay) = ⟨valuNone, 0, transNone, 0, 0⟩ := rfl
  have finished {cycles : Int} (short : cycles ≤ other.maxCycles) :
      clampByte (cycles - other.maxCycles) ≤ 0 := by
    unfold clampByte
    omega
  have valuOver := finished (valu.trans ((le_max_right _ _).trans (le_max_left _ _)))
  have transOver := finished (trans.trans (le_max_right _ _))
  have saluOver := finished (salu.trans ((le_max_left _ _).trans (le_max_left _ _)))
  simp [age, settle, empty, valuOver, transOver, saluOver]

end Wait.Delay

namespace Hazard

open Index

variable {setting : Setting}

/-- An entry without a delay has none after a wait. -/
theorem delay_of_clearEntry {queue : Queue} {entry other : Entry}
    (cleared : State.clearEntry setting queue entry = some other) (still : entry.delay = ∅) :
    other.delay = ∅ := by
  have empty : (∅ : Delay) = ⟨5, 0, 4, 0, 0⟩ := rfl
  have nothing : outlast queue.delay ∅ = ∅ := by
    simp [outlast, empty, Delay.settle, Delay.valuNone, Delay.transNone]
  rw [delay_eq_of_clearEntry cleared, still, nothing, ite_self]

namespace State

variable {state after : State} {queue passed : Queue} {instr : Instr} {footprint : Footprint}
  {sync : Sync}

/-- Behind a delay, a register whose producers are within it has no delay left. Before GFX11 there
are no delays. -/
theorem delay_of_pass {slot : Slot} {held entry : Entry}
    (there : state.registers.get? slot = some held)
    (within : if .gfx11 ≤ setting.generation then held.delay ≤ queue.delay else held.delay = ∅)
    (found : (state.pass setting queue).registers.get? slot = some entry) : entry.delay = ∅ := by
  unfold State.pass at found
  extract_lets lowered aged at found
  rw [SlotMap.get?_retain] at found
  obtain ⟨middle, before, cleared⟩ := Option.bind_eq_some_iff.mp found
  refine delay_of_clearEntry cleared ?_
  change (if _ then _ else _ : State).registers.get? slot = some middle at before
  split at before
  · rename_i recent
    rw [if_pos recent] at within
    unfold State.ageArithmetic at before
    dsimp only at before
    rw [SlotMap.get?_retain] at before
    obtain ⟨first, again, left⟩ := Option.bind_eq_some_iff.mp before
    cases there.symm.trans again
    obtain ⟨_, rfl⟩ := Entry.unlessDone_eq_some.mp left
    have finished : (held.delay.age false false queue.delay.maxCycles).isEmpty = true := by
      rw [Delay.age_maxCycles_of_le within]
      rfl
    rw [if_neg Bool.false_ne_true, if_pos finished]
    rfl
  · rename_i early
    rw [if_neg early] at within
    cases there.symm.trans before
    exact within

section Operands

/-- An operand that waits adds its delay to the queue. -/
theorem delay_le_of_read (arithmetic : (instr.isVector || instr.isScalar) = true) {slot : Slot}
    {entry : Entry} (found : state.registers.get? slot = some entry) (waits : entry.onRead = true)
    {reads writes : List Slot} (isRead : slot ∈ reads) (queue : Queue) :
    entry.delay ≤ (state.registerHazards setting instr ⟨reads, writes⟩ queue).delay := by
  induction reads generalizing queue with
  | nil => cases isRead
  | cons first rest ih =>
      have step : state.registerHazards setting instr ⟨first :: rest, writes⟩ queue =
          state.registerHazards setting instr ⟨rest, writes⟩
            (state.slotHazard (readHazard instr) queue first) := rfl
      rw [step]
      rcases List.mem_cons.mp isRead with rfl | later
      · refine le_trans ?_ (delay_le_registerHazards setting state instr ⟨rest, writes⟩ _)
        rw [slotHazard_of_found state found, readHazard, if_pos waits, if_pos arithmetic]
        exact (Delay.le_combine_left _ _).trans (Delay.combine_comm _ _).le
      · exact ih later _

/-- Operands without a delay add none. -/
theorem delay_registerHazards_of_still
    (still : ∀ slot ∈ footprint.reads, ∀ entry, state.registers.get? slot = some entry →
      entry.onRead = true → (instr.isVector || instr.isScalar) = true → entry.delay = ∅)
    (wait : Requirement) :
    (state.registerHazards setting instr footprint { wait, delay := ∅ }).delay = ∅ := by
  have writing (slots : List Slot) (queue : Queue) :
      (slots.foldl (state.slotHazard (writeHazard setting instr)) queue).delay = queue.delay := by
    induction slots generalizing queue with
    | nil => rfl
    | cons first rest ih =>
        rw [List.foldl_cons, ih]
        unfold slotHazard
        split <;> rfl
  have reading (slots : List Slot) (listed : ∀ slot ∈ slots, slot ∈ footprint.reads)
      (queue : Queue) (empty : queue.delay = ∅) :
      (slots.foldl (state.slotHazard (readHazard instr)) queue).delay = ∅ := by
    induction slots generalizing queue with
    | nil => exact empty
    | cons first rest ih =>
        refine ih (fun slot member => listed slot (List.mem_cons_of_mem _ member)) _ ?_
        unfold slotHazard
        split
        · exact empty
        · rename_i entry found
          unfold readHazard
          by_cases waits : entry.onRead = true
          · rw [if_pos waits]
            by_cases arithmetic : (instr.isVector || instr.isScalar) = true
            · have undelayed :=
                still first (listed first List.mem_cons_self) entry found waits arithmetic
              rw [if_pos arithmetic, empty, undelayed, Delay.combine_self]
            · rwa [if_neg arithmetic]
          · rwa [if_neg waits]
  rw [registerHazards_eq, writing]
  exact reading _ (fun _ => id) _ rfl

end Operands

/-- Where an instruction needs nothing, an empty queue stays empty and the state stays as it is. -/
theorem require_of_needs (nothing : state.needs setting instr footprint sync ∅ = ∅) :
    state.require setting ∅ instr footprint sync = (state, ∅) := by
  have empty : ((∅ : Queue).wait.combine (∅ : Queue).wait) = ∅ := Requirement.combine_self _
  have delay : (∅ : Queue).delay = ∅ := rfl
  unfold State.require
  rw [delay, nothing]
  dsimp only
  rw [empty]
  change ({ state with
    flatVm := state.flatVm && !false, flatLgkm := state.flatLgkm && !false,
    scalarStore := state.scalarStore && !false }, (∅ : Queue)) = (state, ∅)
  simp

/-- Behind its own waits the operands of an instruction have no delays left. -/
theorem still_of_require (occurs : Occurs setting.target state)
    (required : state.require setting queue instr footprint sync = (after, passed)) :
    ∀ slot ∈ footprint.reads, ∀ entry, after.registers.get? slot = some entry →
      entry.onRead = true → (instr.isVector || instr.isScalar) = true → entry.delay = ∅ := by
  intro slot isRead entry found waits arithmetic
  obtain ⟨delay, middle, _, _, _, rfl, moved⟩ := moves_of_require required
  -- The queued delay covers the delay of the operand.
  have covers {held : Entry} (there : state.registers.get? slot = some held)
      (reads : held.onRead = true) : held.delay ≤ passed.delay := by
    rw [delay]
    exact delay_le_of_read arithmetic there reads isRead _
  have tracked := (tracked_of_occurs occurs).registers
  replace found : middle.registers.get? slot = some entry := found
  rcases moved with ⟨empty, rfl⟩ | rfl
  · have kept := tracked slot entry found
    have idle := Delay.isEmpty_of_le kept.near (covers found waits)
      (Bool.and_eq_true_iff.mp empty).2
    refine kept.still ?_
    by_contra held
    rw [kept.delayed (eq_true_of_ne_false held)] at idle
    cases idle
  · obtain ⟨held, there, reads⟩ := exists_of_pass Entry.writeOnly_keptByForgetting found
    have onRead : held.onRead = true := by
      by_contra writeOnly
      rw [reads (eq_false_of_ne_true writeOnly)] at waits
      cases waits
    refine delay_of_pass there ?_ found
    split
    · exact covers there onRead
    · rename_i early
      have quiet := every_of_occurs Entry.lasting_unarithmetic occurs slot held there
      exact (tracked slot held there).still (quiet.resolve_left early)

/-- An instruction that does not have to wait, and whose operands have no delays left, demands
nothing. -/
theorem Ready.demand (ready : state.Ready setting instr footprint)
    (still : ∀ slot ∈ footprint.reads, ∀ entry, state.registers.get? slot = some entry →
      entry.onRead = true → (instr.isVector || instr.isScalar) = true → entry.delay = ∅)
    (touches : instr.footprint = .ok footprint) :
    state.demand setting ∅ instr instr.sync = .ok (state, ∅) := by
  have nothing : state.needs setting instr footprint instr.sync ∅ = ∅ :=
    Queue.ext (ready.wait_needs ∅) (delay_registerHazards_of_still still _)
  exact Outcome.bind_eq_ok.mpr ⟨footprint, touches, congrArg Except.ok (require_of_needs nothing)⟩

/-- After the waits of an instruction have been demanded, demanding them again from an empty queue
yields an empty queue and leaves the state as it is, whatever was queued the first time. -/
theorem demand_again_of_demand (occurs : Occurs setting.target state)
    (demanded : state.demand setting queue instr instr.sync = .ok (after, passed)) :
    after.demand setting ∅ instr instr.sync = .ok (after, ∅) := by
  obtain ⟨footprint, touches, done⟩ := Outcome.bind_eq_ok.mp demanded
  have required := Except.ok.inj done
  exact (ready_of_require required).demand (still_of_require occurs required) touches

namespace SumOfLoadAndMove

/-- The sum of a register that is loaded and one that a move has just written. -/
def sum : Instr where
  opcode := .vAddF32
  operands := [.reg ⟨256⟩ (.vector 1), .reg ⟨257⟩ (.vector 1)]
  definitions := [⟨⟨258⟩, .vector 1⟩]

/-- What is queued in front of the sum. -/
def queued : Queue := { wait := { lgkm := some 2 }, delay := { saluCycles := 1 } }

/-- The state behind the waits of the sum, and the queue with them. -/
def summed : State × Queue :=
  (LoadAfterMove.loaded.demand { target := .ofGeneration .gfx11 } queued sum
    sum.sync).toOption.getD (∅, ∅)

/-- The loaded register waits for the load alone. -/
theorem get?_loaded : LoadAfterMove.loaded.registers.get? ⟨257, by decide⟩ =
    some (.ofEvent .gfx11 .vmem false true .plain 0) := by
  have empty : (∅ : State).registers.get? ⟨257, by decide⟩ = none := SlotMap.get?_empty _
  have moved : LoadAfterMove.moved.registers.get? ⟨257, by decide⟩ = none := by
    rw [LoadAfterMove.moved, get?_ageArithmetic, State.applyAll, List.foldl_cons, List.foldl_nil,
      State.apply, get?_track, if_neg (by decide), empty]
    rfl
  have loaded : LoadAfterMove.loaded = (LoadAfterMove.moved.count .gfx11 .vmem {}).track
    [⟨257, by decide⟩] (.ofEvent .gfx11 .vmem false true .plain 0) := rfl
  rw [loaded, get?_track, if_pos List.mem_cons_self, get?_count, moved]
  rfl

end SumOfLoadAndMove

open SumOfLoadAndMove in
/-- In front of the sum the load has to complete. Demanded again, it needs nothing. -/
theorem sum_demanded_twice :
    Occurs (.ofGeneration .gfx11) LoadAfterMove.loaded ∧
      LoadAfterMove.loaded.demand { target := .ofGeneration .gfx11 } queued sum sum.sync =
        .ok summed ∧
      summed.2.wait.get .vm = some 0 ∧
      summed.1.demand { target := .ofGeneration .gfx11 } ∅ sum sum.sync = .ok (summed.1, ∅) := by
  have occurs := LoadAfterMove.reachable_loaded.occurs
  let touched : Footprint := { reads := [256, 257], writes := [258] }
  have demanded : LoadAfterMove.loaded.demand { target := .ofGeneration .gfx11 } queued sum
      sum.sync = .ok summed :=
    Outcome.bind_eq_ok.mpr ⟨touched, rfl, rfl⟩
  have asks : LoadAfterMove.loaded.Asks { target := .ofGeneration .gfx11 } sum touched .vm 0 :=
    .read (List.mem_cons_of_mem _ List.mem_cons_self) get?_loaded rfl rfl
  obtain ⟨tighter, needed, below⟩ := asks.needed (by decide) queued.delay
  refine ⟨occurs, demanded, ?_, demand_again_of_demand occurs demanded⟩
  have required : LoadAfterMove.loaded.require { target := .ofGeneration .gfx11 } queued sum touched
      sum.sync = (summed.1, summed.2) := rfl
  obtain ⟨least, asked, lower⟩ :=
    ((of_require required).1.trans (entails_combine_right _ _)) .vm tighter needed
  rw [asked, Nat.le_zero.mp (lower.trans below)]

end State

end Hazard

end WaveHazard
