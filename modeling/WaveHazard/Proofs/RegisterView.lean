import Mathlib.Order.Fin.Basic
import WaveHazard.Hazard.Issue
import WaveHazard.Proofs.JoinOrder

/-! # Effects seen from one register

What each effect does to the entry of one register slot. Slots that are listed twice are joined
twice with the same entry, which is the same as once.
-/

namespace WaveHazard.Hazard

open Machine Wait Index

namespace State

variable (generation : Generation) (state : State) (slot : Slot)

/-- What a slot holds once it waits for one more producer. -/
def joinProducer (held : Option Entry) (entry : Entry) : Entry :=
  match held with
  | none => entry
  | some held => held.join entry

/-- A producer that is joined twice counts once. -/
theorem joinProducer_again (held : Option Entry) (entry : Entry) :
    joinProducer (some (joinProducer held entry)) entry = joinProducer held entry := by
  cases held with
  | none => exact Entry.join_self entry
  | some held =>
      change (held.join entry).join entry = held.join entry
      rw [Entry.join_assoc, Entry.join_self]

/-- Tracking joins the producer into the given slots and leaves the others alone. -/
theorem get?_track (slots : List Slot) (entry : Entry) :
    (state.track slots entry).registers.get? slot =
      if slot ∈ slots then some (joinProducer (state.registers.get? slot) entry)
      else state.registers.get? slot := by
  have tracked : (state.track slots entry).registers = slots.foldl (fun registers slot =>
      registers.alter slot fun held => some (joinProducer held entry)) state.registers := by
    unfold track
    dsimp only
    congr
    funext registers slot
    congr
    funext held
    cases held <;> rfl
  rw [tracked]
  clear tracked
  generalize state.registers = registers
  induction slots generalizing registers with
  | nil => simp
  | cons first rest ih =>
      rw [List.foldl_cons, ih, SlotMap.get?_alter]
      by_cases same : first = slot
      · subst same
        simp [joinProducer_again]
      · simp [same, Ne.symm same]

/-- The counters on which an operation ages what is pending: those with a flat load outstanding that
may return out of order are left out. -/
def agedCounters (event : Event) : Counters :=
  let counters := generation.countersOf event
  let counters := if state.flatLgkm then counters.diff (Counters.single .lgkm) else counters
  if state.flatVm then counters.diff (Counters.single .vm) else counters

/-- Counting an ordered operation ages the entry of every register, and an unordered one leaves them
alone. -/
theorem get?_count (event : Event) (sync : Sync) :
    (state.count generation event sync).registers.get? slot =
      if generation.isUnordered (.single event) then state.registers.get? slot
      else (state.registers.get? slot).map fun entry =>
        entry.age generation event (agedCounters generation state event) := by
  unfold State.count
  dsimp only
  split
  · rfl
  · exact SlotMap.get?_map ..

/-- A flat load makes every entry wait for completion on the two counters it may use. -/
theorem get?_flatLoad (sync : Sync) :
    (state.flatLoad generation sync).registers.get? slot =
      (state.registers.get? slot).map fun entry =>
        { entry with
          wait := entry.wait.drain fun counter =>
            (Counters.ofList [.lgkm, .vm]).holds counter && entry.counters.holds counter } :=
  SlotMap.get?_map ..

/-- An arithmetic instruction ages the delay of every entry, and entries that wait for nothing are
dropped. -/
theorem get?_ageArithmetic (isValu isTrans forget : Bool) (cycles : Int) :
    (state.ageArithmetic isValu isTrans forget cycles).registers.get? slot =
      (state.registers.get? slot).bind fun entry =>
        (if forget then entry.dropArithmetic
        else if (entry.delay.age isValu isTrans cycles).isEmpty then
          { entry with delay := entry.delay.age isValu isTrans cycles }.dropArithmetic
        else { entry with delay := entry.delay.age isValu isTrans cycles }).unlessDone :=
  SlotMap.get?_retain ..

end State

end WaveHazard.Hazard
