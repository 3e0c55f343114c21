import WaveHazard.Proofs.Bookkeeping
import WaveHazard.Proofs.DelayMeaning
import WaveHazard.Proofs.FieldWidths

/-! # Reading a delay back

A delay instruction has two fields of four bits, and three pipelines want to put a condition into
them. The transcendental one comes first, the vector one takes the next free field, and the scalar
one takes what is left, if anything is. Each condition is read back from the field that it was put
into, so what an instruction says of the vector and the transcendental pipeline is what its delay
says. The one thing that has no condition is a vector producer at distance 0: that dependency is
encoded like none at all.
-/

namespace WaveHazard

open Machine

namespace Wait.Delay

/-- The distances to the closest producers are at least the given ones. -/
structure Reaches (leastValu leastTrans : Int) (delay : Delay) : Prop extends delay.Near where
  farValu : leastValu ≤ delay.valuInstrs
  farTrans : leastTrans ≤ delay.transInstrs

/-- The delay with the conditions of both fields of an immediate. -/
def attachImm (delay : Delay) (imm : Nat) : Delay :=
  (delay.attachCode (imm % 16)).attachCode (imm / 128 % 16)

/-- The condition for the transcendental pipeline. -/
def transCondition (delay : Delay) : Nat :=
  if delay.transInstrs = transNone then 0
  else lowWord (DelayCode.trans32Dep1.code + delay.transInstrs - 1)

/-- The immediate with the conditions for the transcendental and the vector pipeline. -/
def vectorConditions (delay : Delay) : Nat :=
  if delay.valuInstrs = valuNone then delay.transCondition
  else addCondition delay.transCondition (lowWord (DelayCode.valuDep1.code + delay.valuInstrs - 1))

/-- The immediate of the delay instruction: the scalar condition takes a field that is free. -/
def conditions (delay : Delay) : Nat :=
  if delay.saluCycles ≠ 0 ∧ Bits.fieldWidth delay.vectorConditions ≤ 4 then
    addCondition delay.vectorConditions
      (DelayCode.saluCycle1.code + lowWord (min delay.saluCycles 3) - 1)
  else delay.vectorConditions

/-- What a delay instruction can say of the delay: no condition stands for a vector producer at
distance 0. -/
def withoutAdjacent (delay : Delay) : Delay :=
  { delay with valuInstrs := if delay.valuInstrs = 0 then valuNone else delay.valuInstrs }

variable {delay : Delay}

/-- A delay without a producer at distance 0 can be said in full. -/
theorem withoutAdjacent_of_pos (apart : 1 ≤ delay.valuInstrs) : delay.withoutAdjacent = delay := by
  have different : delay.valuInstrs ≠ 0 := by omega
  unfold withoutAdjacent
  rw [if_neg different]

/-- What can be said is about producers at distance 1 and further. -/
theorem Reaches.withoutAdjacent (reaches : delay.Reaches 0 1) :
    delay.withoutAdjacent.Reaches 1 1 := by
  unfold Delay.withoutAdjacent
  split
  · have far : 1 ≤ valuNone := by decide
    exact ⟨⟨le_rfl, reaches.trans, reaches.salu⟩, far, reaches.farTrans⟩
  · rename_i apart
    have far : 1 ≤ delay.valuInstrs := by
      have := reaches.farValu
      omega
    exact ⟨⟨reaches.valu, reaches.trans, reaches.salu⟩, far, reaches.farTrans⟩

/-- A vector producer at distance 0 is encoded like none. -/
theorem conditions_withoutAdjacent (delay : Delay) :
    delay.withoutAdjacent.conditions = delay.conditions := by
  have same : delay.withoutAdjacent.vectorConditions = delay.vectorConditions := by
    by_cases adjacent : delay.valuInstrs = 0
    · have nothing (imm : Nat) : addCondition imm 0 = imm := by
        unfold addCondition
        split
        · exact Eq.symm ‹_›
        · rw [Nat.zero_mul, Nat.zero_mod, Nat.or_zero]
      have code : lowWord (DelayCode.valuDep1.code + (0 : Int) - 1) = 0 := rfl
      have far : ¬(0 : Int) = valuNone := by decide
      unfold vectorConditions Delay.withoutAdjacent
      rw [adjacent, if_pos rfl, if_pos rfl, if_neg far, code, nothing]
      rfl
    · unfold Delay.withoutAdjacent
      rw [if_neg adjacent]
  unfold conditions
  rw [same]
  rfl

/-! ## One condition -/

section Condition

theorem attachCode_zero (delay : Delay) : delay.attachCode 0 = delay := rfl

/-- The code of a distance in the vector pipeline is read back as that distance. -/
theorem attachCode_valu (delay : Delay) {distance : Int} (near : 1 ≤ distance)
    (encodable : distance < valuNone) :
    delay.attachCode (lowWord (DelayCode.valuDep1.code + distance - 1)) =
      { delay with valuInstrs := distance } := by
  unfold valuNone at encodable
  obtain rfl | rfl | rfl | rfl : distance = 1 ∨ distance = 2 ∨ distance = 3 ∨ distance = 4 := by
    omega
  all_goals rfl

/-- The code of a distance in the transcendental pipeline is read back as that distance. -/
theorem attachCode_trans (delay : Delay) {distance : Int} (near : 1 ≤ distance)
    (encodable : distance < transNone) :
    delay.attachCode (lowWord (DelayCode.trans32Dep1.code + distance - 1)) =
      { delay with transInstrs := distance } := by
  unfold transNone at encodable
  obtain rfl | rfl | rfl : distance = 1 ∨ distance = 2 ∨ distance = 3 := by omega
  all_goals rfl

/-- The code of scalar cycles is read back as these, up to 3. -/
theorem attachCode_salu (delay : Delay) {cycles : Int} (late : 1 ≤ cycles) (few : cycles ≤ 3) :
    delay.attachCode (DelayCode.saluCycle1.code + lowWord cycles - 1) =
      { delay with saluCycles := cycles } := by
  obtain rfl | rfl | rfl : cycles = 1 ∨ cycles = 2 ∨ cycles = 3 := by omega
  all_goals rfl

/-- An immediate of one field. -/
theorem attachImm_of_lt (delay : Delay) {imm : Nat} (small : imm < 16) :
    delay.attachImm imm = delay.attachCode imm := by
  have first : imm % 16 = imm := by omega
  have second : imm / 128 % 16 = 0 := by omega
  unfold attachImm
  rw [first, second, attachCode_zero]

/-- A condition is put behind the one that is there. -/
theorem addCondition_of_ne_zero {imm code : Nat} (taken : imm ≠ 0) (first : imm < 16)
    (second : code < 16) : addCondition imm code = imm + code * 128 := by
  have whole : code * 128 % 65536 = code * 2 ^ 7 := by omega
  unfold addCondition
  rw [if_neg taken, whole]
  exact CoalesceDelays.or_eq_add_of_lt (by omega : imm < 2 ^ 7) code

/-- Both conditions are read back. -/
theorem attachImm_addCondition (delay : Delay) {imm code : Nat} (first : imm < 16)
    (second : code < 16) :
    delay.attachImm (addCondition imm code) = (delay.attachCode imm).attachCode code := by
  by_cases free : imm = 0
  · rw [free, attachCode_zero, addCondition, if_pos rfl, attachImm_of_lt delay second]
  · have low : (imm + code * 128) % 16 = imm := by omega
    have high : (imm + code * 128) / 128 % 16 = code := by omega
    rw [addCondition_of_ne_zero free first second, attachImm, low, high]

end Condition

/-! ## The conditions of a delay -/

section Conditions

variable (reaches : delay.Reaches 1 1)

include reaches

/-- The transcendental condition fits into its field. -/
theorem Reaches.transCondition_lt : delay.transCondition < 16 := by
  have code : DelayCode.trans32Dep1.code = 5 := rfl
  have near := reaches.trans
  have far := reaches.farTrans
  unfold transCondition lowWord
  unfold transNone at *
  split <;> omega

/-- The transcendental condition is read back as its distance. -/
theorem Reaches.attachCode_transCondition :
    (∅ : Delay).attachCode delay.transCondition = { transInstrs := delay.transInstrs } := by
  unfold transCondition
  split
  · rename_i absent
    rw [absent]
    rfl
  · rename_i present
    exact attachCode_trans ∅ reaches.farTrans (lt_of_le_of_ne reaches.trans present)

/-- What is said of the vector and the transcendental pipeline is read back. -/
theorem Reaches.attachImm_vectorConditions : (∅ : Delay).attachImm delay.vectorConditions =
    { valuInstrs := delay.valuInstrs, transInstrs := delay.transInstrs } := by
  unfold vectorConditions
  split
  · rename_i absent
    rw [attachImm_of_lt _ reaches.transCondition_lt, reaches.attachCode_transCondition, absent]
    rfl
  · rename_i present
    have encodable : delay.valuInstrs < valuNone := lt_of_le_of_ne reaches.valu present
    have small : lowWord (DelayCode.valuDep1.code + delay.valuInstrs - 1) < 16 := by
      have code : DelayCode.valuDep1.code = 1 := rfl
      have near := reaches.farValu
      unfold lowWord valuNone at *
      omega
    rw [attachImm_addCondition _ reaches.transCondition_lt small,
      reaches.attachCode_transCondition, attachCode_valu _ reaches.farValu encodable]

/-- A field is free unless both pipelines have a condition. -/
theorem Reaches.vectorConditions_lt_iff : delay.vectorConditions < 16 ↔
    delay.valuInstrs = valuNone ∨ delay.transInstrs = transNone := by
  have trans := reaches.transCondition_lt
  have code : DelayCode.valuDep1.code = 1 := rfl
  by_cases noValu : delay.valuInstrs = valuNone
  · unfold vectorConditions
    rw [if_pos noValu]
    exact ⟨fun _ => .inl noValu, fun _ => trans⟩
  · have small : lowWord (DelayCode.valuDep1.code + delay.valuInstrs - 1) < 16 ∧
        lowWord (DelayCode.valuDep1.code + delay.valuInstrs - 1) ≠ 0 := by
      have near := reaches.valu
      have far := reaches.farValu
      unfold lowWord valuNone at *
      omega
    unfold vectorConditions
    rw [if_neg noValu]
    by_cases noTrans : delay.transInstrs = transNone
    · unfold transCondition addCondition
      rw [if_pos noTrans, if_pos rfl]
      exact ⟨fun _ => .inr noTrans, fun _ => small.1⟩
    · have taken : delay.transCondition ≠ 0 := by
        have code : DelayCode.trans32Dep1.code = 5 := rfl
        have near := reaches.trans
        have far := reaches.farTrans
        unfold transCondition lowWord
        unfold transNone at *
        rw [if_neg noTrans]
        omega
      rw [addCondition_of_ne_zero taken trans small.1]
      refine ⟨fun low => ?_, fun free => absurd free (by simp [noValu, noTrans])⟩
      have := small.2
      omega

/-- What the immediate says of the delay: both distances, and the scalar latency up to what can be
encoded if a field is left for it. -/
theorem Reaches.attachImm_conditions : (∅ : Delay).attachImm delay.conditions =
    { valuInstrs := delay.valuInstrs, transInstrs := delay.transInstrs,
      saluCycles := if delay.valuInstrs = valuNone ∨ delay.transInstrs = transNone then
        min delay.saluCycles 3 else 0 } := by
  have both := reaches.attachImm_vectorConditions
  have forward := reaches.salu
  have fits : Bits.fieldWidth delay.vectorConditions ≤ 4 ↔ delay.vectorConditions < 16 :=
    Bits.fieldWidth_le_iff (by decide)
  unfold conditions
  by_cases free : delay.vectorConditions < 16
  · have left := reaches.vectorConditions_lt_iff.mp free
    by_cases finished : delay.saluCycles = 0
    · rw [if_neg (fun both => both.1 finished), both, if_pos left, finished]
      rfl
    · have small : DelayCode.saluCycle1.code + lowWord (min delay.saluCycles 3) - 1 < 16 := by
        have code : DelayCode.saluCycle1.code = 9 := rfl
        unfold lowWord
        omega
      rw [if_pos ⟨finished, fits.mpr free⟩, attachImm_addCondition _ free small,
        ← attachImm_of_lt _ free, both, attachCode_salu _ (by omega) (by omega), if_pos left]
  · rw [if_neg (fun both => free (fits.mp both.2)), both,
      if_neg (free ∘ reaches.vectorConditions_lt_iff.mpr)]

/-- Whatever is to be waited for has a condition. -/
theorem Reaches.conditions_eq_zero_iff : delay.conditions = 0 ↔ delay.isEmpty = true := by
  have read := reaches.attachImm_conditions
  have forward := reaches.salu
  constructor
  · intro zero
    rw [zero] at read
    have nothing : (∅ : Delay).attachImm 0 = ⟨valuNone, 0, transNone, 0, 0⟩ := rfl
    rw [nothing, Delay.mk.injEq] at read
    obtain ⟨valu, _, trans, _, salu⟩ := read
    rw [if_pos (.inl valu.symm)] at salu
    simp only [isEmpty, Bool.and_eq_true, beq_iff_eq]
    omega
  · intro empty
    simp only [isEmpty, Bool.and_eq_true, beq_iff_eq] at empty
    obtain ⟨⟨valu, trans⟩, salu⟩ := empty
    unfold conditions vectorConditions transCondition
    simp [valu, trans, salu]

end Conditions

/-! ## The delay instruction -/

/-- The outstanding cycles travel in the scratch word of the instruction. -/
theorem lower_eq_ok (forward : 0 ≤ delay.saluCycles) :
    delay.lower = .ok { Instr.immediate .sDelayAlu delay.conditions with
      scratch := (delay.valuCycles % 256).toNat + (delay.transCycles % 256).toNat * 65536 } := by
  have small : DelayCode.saluCycle1.code + lowWord (min delay.saluCycles 3) < 65536 := by
    have code : DelayCode.saluCycle1.code = 9 := rfl
    unfold lowWord
    omega
  by_cases free : delay.saluCycles ≠ 0 ∧ Bits.fieldWidth delay.vectorConditions ≤ 4
  · have imm : delay.conditions = addCondition delay.vectorConditions
        (DelayCode.saluCycle1.code + lowWord (min delay.saluCycles 3) - 1) := if_pos free
    rw [imm]
    exact (if_pos free).trans (if_pos small)
  · have imm : delay.conditions = delay.vectorConditions := if_neg free
    rw [imm]
    exact if_neg free

/-- The instruction of a delay says of the vector and the transcendental pipeline what the delay
does, but nothing of a vector producer at distance 0. -/
theorem Reaches.read_back (reaches : delay.Reaches 0 1) (pending : delay.isEmpty = false)
    {instr : Instr} (lowered : delay.lower = .ok instr) :
    ∃ imm read, instr.imm? = some imm ∧ instr.delay? = some read ∧
      read.transInstrs = delay.transInstrs ∧
      (1 ≤ delay.valuInstrs → imm ≠ 0 ∧ read.valuInstrs = delay.valuInstrs) ∧
      (delay.valuInstrs = 0 → read.valuInstrs = valuNone) := by
  have apart := reaches.withoutAdjacent
  have said := apart.attachImm_conditions
  have nothing := apart.conditions_eq_zero_iff
  rw [conditions_withoutAdjacent] at said nothing
  cases (lower_eq_ok reaches.salu).symm.trans lowered
  have valu := congrArg Delay.valuInstrs said
  have trans := congrArg Delay.transInstrs said
  refine ⟨delay.conditions, _, rfl, rfl, trans, fun far => ?_, fun adjacent => ?_⟩
  · rw [withoutAdjacent_of_pos far] at valu nothing
    refine ⟨fun zero => ?_, valu⟩
    rw [nothing.mp zero] at pending
    cases pending
  · exact valu.trans (if_pos adjacent)

end Wait.Delay

end WaveHazard
