import WaveHazard.Proofs.Encodable

/-! # Emission loses nothing

A queue is emitted in front of the instruction it is for, and is empty afterwards: whatever it held
has to be in the code. The code waits for every threshold of the queue, or for less where the
threshold does not fit into its field, and for nothing else.
-/

namespace WaveHazard

open Machine Wait Hazard

namespace Wait.Requirement

variable {generation : Generation} {wait : Requirement}

/-- The counters that not all generations have are the ones for stores and those that GFX12 splits
off. -/
theorem known_of_stores_and_split (stores : wait.isSet .vs = true → .gfx10 ≤ generation)
    (split : ∀ counter ∈ [Counter.sample, .bvh, .km], wait.isSet counter = true →
      .gfx12 ≤ generation) : wait.Known generation := by
  intro counter set
  unfold Generation.HasCounter
  cases counter with
  | exp | lgkm | vm => cases generation <;> decide
  | vs =>
      have late := stores set
      revert late
      cases generation <;> decide
  | sample | bvh | km =>
      have latest := split _ (by decide) set
      revert latest
      cases generation <;> decide

/-- A generation can wait on every counter that a known requirement names. -/
theorem Known.waitsOn (known : wait.Known generation) {counter : Counter}
    (set : wait.isSet counter = true) : generation.waitsOn counter = true := by
  have present : 0 < generation.fieldMax counter := known counter set
  revert present
  cases counter <;> cases generation <;> decide

/-- What is read back from the code of a requirement for counters that there are. -/
theorem Known.get_awaited (known : wait.Known generation) {code : List Instr}
    (lowered : wait.lower generation = .ok code) (counter : Counter) :
    (awaited generation code).get counter = (wait.get counter).map fun n =>
      if generation.maxThreshold counter < n then 0 else n := by
  rw [(awaited_lower lowered).2, get_only, clamp, get_ofFn]
  cases set : wait.isSet counter with
  | true => rw [known.waitsOn set, if_pos rfl]
  | false =>
      rw [isSet, Option.isSome_eq_false_iff, Option.isNone_iff_eq_none] at set
      rw [set, Option.map_none, ite_self]

end Wait.Requirement

namespace Hazard

variable {setting : Setting} {wait : Requirement}

/-- A requirement for counters that the generation has becomes code of nothing but waits, and what
is read back from it is the requirement with the thresholds that are too large replaced by 0: never
less than was asked for, and on no other counter. What is queued in front of an instruction is
placed there, and only what the instruction itself asks for is queued behind it. -/
theorem emission_loses_nothing (stores : wait.isSet .vs = true → .gfx10 ≤ setting.generation)
    (split : ∀ counter ∈ [Counter.sample, .bvh, .km], wait.isSet counter = true →
      .gfx12 ≤ setting.generation) :
    (∃ code, wait.lower setting.generation = .ok code ∧
      (∀ instr ∈ code, (instr.wait? setting.generation).isSome) ∧
      (∀ counter, (awaited setting.generation code).get counter =
        (wait.get counter).map fun n =>
          if setting.generation.maxThreshold counter < n then 0 else n) ∧
      Entails (awaited setting.generation code) wait ∧
      ∀ counter, (awaited setting.generation code).isSet counter = wait.isSet counter) ∧
    ∀ {covered : Nat} {state final : State} {queue trailing : Queue} {instr : Instr}
      {rest : List Instr} {placed : List Placement},
      transferFrom setting covered state queue (instr :: rest) = .ok (final, trailing, placed) →
        isAbsorbed setting.generation instr = false → ∃ issued queued later others,
          placed = absorbExports queued instr :: others ∧
            transferFrom setting later issued { wait := issued.afterIssue setting instr } rest =
              .ok (final, trailing, others) := by
  constructor
  · have known := Requirement.known_of_stores_and_split stores split
    obtain ⟨code, lowered⟩ := Requirement.succeeds_lower known
    have read := known.get_awaited lowered
    refine ⟨code, lowered, (Requirement.awaited_lower lowered).1, read, ?_, fun counter => ?_⟩
    · intro counter bound asked
      refine ⟨_, (read counter).trans (by rw [asked]; rfl), ?_⟩
      dsimp only
      split
      · exact Nat.zero_le bound
      · exact Nat.le_refl bound
    · rw [Requirement.isSet, read, Option.isSome_map, Requirement.isSet]
  · intro covered state final queue trailing instr rest placed ran kept
    obtain ⟨issued, queued, _, proceeds⟩ := crosses_of_transferFrom ran
    cases proceeds with
    | absorb absorbed _ => exact Bool.noConfusion (kept.symm.trans absorbed)
    | place _ next => exact ⟨issued, queued, _, _, rfl, next⟩

namespace LoadsAndScalarLoads

/-- Loads, data share and scalar memory to wait for, the last one up to a threshold that does not
fit into its field. -/
def request : Requirement := { vm := some 2, lgkm := some 0, km := some 40 }

/-- The pair of loads and data share, and scalar memory. -/
def code : List Instr := [.immediate .sWaitLoadcntDscnt 0x200, .immediate .sWaitKmcnt 0]

def nop : Instr := { opcode := .sNop }

end LoadsAndScalarLoads

open LoadsAndScalarLoads in
/-- The thresholds are read back from the pair, scalar memory is drained, and nothing of the request
is queued behind the instruction it was for. -/
theorem loads_and_scalar_loads_read_back :
    request.lower .gfx12 = .ok code ∧
      (awaited .gfx12 code).get .vm = some 2 ∧ (awaited .gfx12 code).get .lgkm = some 0 ∧
      (awaited .gfx12 code).get .km = some 0 ∧ (awaited .gfx12 code).isSet .vs = false ∧
      ∃ final queued,
        transferFrom { target := .ofGeneration .gfx12 } 0 ∅ { wait := request } [nop] =
          .ok (final, { wait := final.afterIssue { target := .ofGeneration .gfx12 } nop },
            [absorbExports queued nop]) := by
  obtain ⟨⟨emitted, lowered, _, read, _, sets⟩, places⟩ :=
    @emission_loses_nothing { target := .ofGeneration .gfx12 } request (fun _ => by decide)
      (fun _ _ _ => by decide)
  have same : request.lower .gfx12 = .ok code := rfl
  cases same.symm.trans lowered
  refine ⟨same, read .vm, read .lgkm, read .km, sets .vs, ?_⟩
  have runs : ∃ final trailing placed, transferFrom { target := .ofGeneration .gfx12 } 0 ∅
      { wait := request } [nop] = .ok (final, trailing, placed) := ⟨_, _, _, rfl⟩
  obtain ⟨final, trailing, placed, ran⟩ := runs
  obtain ⟨issued, queued, later, others, rfl, next⟩ := places ran (by decide)
  cases next
  exact ⟨_, queued, ran⟩

end Hazard

end WaveHazard
