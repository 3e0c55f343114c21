import WaveHazard.Proofs.DelayEncoding

/-! # What a delay instruction says

The dependencies of a delay take the two fields of its instruction in a fixed order, one field each:
the transcendental pipeline, the vector pipeline, the scalar one. There is no third field, so the
last of three is dropped, and that is the scalar one. Between the fields nothing is written, so the
instruction skips nothing, and the latencies travel beside the immediate. Reading the instruction
gives the delay back, except that the scalar latency is cut to the longest one that has a code.
-/

namespace WaveHazard.Wait.Delay

open Machine

/-- What is handed over for encoding: distances of at least 1, and latencies that have not become
negative. -/
structure Encodable (delay : Delay) : Prop where
  valuInstrs : 1 ≤ delay.valuInstrs ∧ delay.valuInstrs ≤ valuNone
  transInstrs : 1 ≤ delay.transInstrs ∧ delay.transInstrs ≤ transNone
  valuCycles : 0 ≤ delay.valuCycles ∧ delay.valuCycles ≤ 127
  transCycles : 0 ≤ delay.transCycles ∧ delay.transCycles ≤ 127
  saluCycles : 0 ≤ delay.saluCycles ∧ delay.saluCycles ≤ 127

/-- The codes of the dependencies on the transcendental and the vector pipeline. -/
def vectorCodes (delay : Delay) : List Nat :=
  (if delay.transInstrs = transNone then []
    else [DelayCode.trans32Dep1.code + (delay.transInstrs - 1).toNat]) ++
  (if delay.valuInstrs = valuNone then []
    else [DelayCode.valuDep1.code + (delay.valuInstrs - 1).toNat])

/-- The codes of all dependencies, in the order in which they take the fields. -/
def codes (delay : Delay) : List Nat :=
  delay.vectorCodes ++
  (if delay.saluCycles = 0 then []
    else [DelayCode.saluCycle1.code + (min delay.saluCycles 3 - 1).toNat])

/-! ## Conditions in fields of their own -/

/-- An immediate of at most two conditions has each of them in a field of its own, and nothing
besides. -/
theorem fields_of_foldl {codes : List Nat} (few : codes.length ≤ 2)
    (small : ∀ code ∈ codes, 0 < code ∧ code < 16) {imm : Nat}
    (whole : codes.foldl addCondition 0 = imm) :
    imm / 16 % 8 = 0 ∧ [imm % 16, imm / 128].filter (· ≠ 0) = codes := by
  match codes, few, small with
  | [], _, _ =>
      subst whole
      exact ⟨rfl, rfl⟩
  | [first], _, small =>
      obtain ⟨used, fits⟩ := small first List.mem_cons_self
      have same : first = imm := whole
      subst same
      have low : first % 16 = first := Nat.mod_eq_of_lt fits
      have high : first / 128 = 0 := by omega
      rw [low, high]
      refine ⟨by omega, ?_⟩
      simp [Nat.ne_of_gt used]
  | [first, second], _, small =>
      obtain ⟨used, fits⟩ := small first List.mem_cons_self
      obtain ⟨taken, inside⟩ := small second (List.mem_cons_of_mem _ List.mem_cons_self)
      have sum : addCondition first second = first + second * 128 :=
        addCondition_of_ne_zero (Nat.ne_of_gt used) fits inside
      have same : first + second * 128 = imm := sum.symm.trans whole
      subst same
      have low : (first + second * 128) % 16 = first := by omega
      have high : (first + second * 128) / 128 = second := by omega
      rw [low, high]
      refine ⟨by omega, ?_⟩
      simp [Nat.ne_of_gt used, Nat.ne_of_gt taken]

/-- A field is filled only if its dependency is there. -/
theorem foldl_addCondition_ite {absent : Prop} [Decidable absent] (imm code : Nat) :
    (if absent then [] else [code]).foldl addCondition imm =
      if absent then imm else addCondition imm code := by
  split <;> rfl

namespace Encodable

variable {delay : Delay}

/-- A delay that can be encoded looks back at least one instruction. -/
theorem reaches (encodable : delay.Encodable) : delay.Reaches 1 1 :=
  ⟨⟨encodable.valuInstrs.2, encodable.transInstrs.2, encodable.saluCycles.1⟩,
    encodable.valuInstrs.1, encodable.transInstrs.1⟩

/-- Every code is that of a condition, and not that of none. -/
theorem small_codes (encodable : delay.Encodable) :
    ∀ code ∈ delay.codes, 0 < code ∧ code < 16 := by
  obtain ⟨valu, trans, _, _, salu⟩ := encodable
  unfold valuNone at valu
  unfold transNone at trans
  have known {absent : Prop} [Decidable absent] {code other : Nat}
      (small : 0 < other ∧ other < 16) (member : code ∈ if absent then [] else [other]) :
      0 < code ∧ code < 16 := by
    split at member
    · cases member
    · rwa [List.mem_singleton.mp member]
  intro code member
  rcases List.mem_append.mp member with vector | third
  · rcases List.mem_append.mp vector with first | second
    · exact known (by rw [DelayCode.code]; omega) first
    · exact known (by rw [DelayCode.code]; omega) second
  · exact known (by rw [DelayCode.code]; omega) third

/-- The transcendental and the vector dependency take the fields first. -/
theorem foldl_vectorCodes (encodable : delay.Encodable) :
    delay.vectorCodes.foldl addCondition 0 = delay.vectorConditions := by
  obtain ⟨valu, trans, _, _, _⟩ := encodable
  have transCode : lowWord (DelayCode.trans32Dep1.code + delay.transInstrs - 1) =
      DelayCode.trans32Dep1.code + (delay.transInstrs - 1).toNat := by
    rw [DelayCode.code]
    unfold lowWord transNone at *
    omega
  have valuCode : lowWord (DelayCode.valuDep1.code + delay.valuInstrs - 1) =
      DelayCode.valuDep1.code + (delay.valuInstrs - 1).toNat := by
    rw [DelayCode.code]
    unfold lowWord valuNone at *
    omega
  unfold vectorCodes vectorConditions transCondition
  rw [List.foldl_append, foldl_addCondition_ite, foldl_addCondition_ite, transCode, valuCode]
  rfl

theorem length_vectorCodes_le (delay : Delay) : delay.vectorCodes.length ≤ 2 := by
  unfold vectorCodes
  rw [List.length_append]
  split <;> split <;> simp

/-- A field is left as soon as one of the two pipelines is not waited for. -/
theorem length_vectorCodes_lt (delay : Delay) : delay.vectorCodes.length < 2 ↔
    delay.valuInstrs = valuNone ∨ delay.transInstrs = transNone := by
  unfold vectorCodes
  by_cases noTrans : delay.transInstrs = transNone
  · by_cases noValu : delay.valuInstrs = valuNone <;> simp [noTrans, noValu]
  · by_cases noValu : delay.valuInstrs = valuNone <;> simp [noTrans, noValu]

/-- The first two of the dependencies are put into the immediate. -/
theorem foldl_codes (encodable : delay.Encodable) :
    (delay.codes.take 2).foldl addCondition 0 = delay.conditions := by
  have vector := encodable.foldl_vectorCodes
  have free : Bits.fieldWidth delay.vectorConditions ≤ 4 ↔ delay.vectorCodes.length < 2 := by
    rw [Bits.fieldWidth_le_iff (by decide), length_vectorCodes_lt]
    exact encodable.reaches.vectorConditions_lt_iff
  unfold conditions
  by_cases finished : delay.saluCycles = 0
  · have nothing : delay.codes = delay.vectorCodes := by
      rw [codes, if_pos finished, List.append_nil]
    rw [if_neg (fun both => both.1 finished), nothing,
      List.take_of_length_le (length_vectorCodes_le delay), vector]
  · have saluCode : DelayCode.saluCycle1.code + lowWord (min delay.saluCycles 3) - 1 =
        DelayCode.saluCycle1.code + (min delay.saluCycles 3 - 1).toNat := by
      have late := encodable.saluCycles.1
      rw [DelayCode.code]
      unfold lowWord
      omega
    by_cases left : delay.vectorCodes.length < 2
    · have few : delay.codes.length ≤ 2 := by
        rw [codes, if_neg finished, List.length_append]
        exact left
      rw [if_pos ⟨finished, free.mpr left⟩, List.take_of_length_le few, codes, if_neg finished,
        List.foldl_append, vector, saluCode]
      rfl
    · have full : delay.vectorCodes.length = 2 :=
        le_antisymm (length_vectorCodes_le delay) (not_lt.mp left)
      rw [if_neg (fun both => left (free.mp both.2)), codes, ← full, List.take_left, vector]

/-- The latencies are read back from the scratch word. -/
theorem cycles_of_scratch (encodable : delay.Encodable) {scratch : Nat}
    (kept : scratch = (delay.valuCycles % 256).toNat + (delay.transCycles % 256).toNat * 65536) :
    ((min (scratch % 65536) 127 : Nat) : Int) = delay.valuCycles ∧
      ((min (scratch / 65536) 127 : Nat) : Int) = delay.transCycles := by
  obtain ⟨_, _, valu, trans, _⟩ := encodable
  omega

end Encodable

/-- The delay that an instruction with an immediate asks for is made of its two fields and the
cycles in the scratch field. -/
theorem delay?_immediate (imm scratch : Nat) :
    ({ Instr.immediate .sDelayAlu imm with scratch := scratch } : Instr).delay? =
      some { (∅ : Delay).attachImm imm with
        valuCycles := ((min (scratch % 65536) 127 : Nat) : Int),
        transCycles := ((min (scratch / 65536) 127 : Nat) : Int) } :=
  rfl

/-- A delay is lowered to an instruction from which it is read back, with the scalar latency cut to
what can be encoded, or left out when both fields are taken. The instruction skips nothing, and its
two fields hold the codes of the first two dependencies, one each. -/
theorem lower_reads_back {delay : Delay} (encodable : delay.Encodable) :
    ∃ instr imm, delay.lower = .ok instr ∧ instr.imm? = some imm ∧
      instr.delay? = some { delay with
        saluCycles := if delay.valuInstrs = valuNone ∨ delay.transInstrs = transNone then
          min delay.saluCycles 3 else 0 } ∧
      imm / 16 % 8 = 0 ∧ [imm % 16, imm / 128].filter (· ≠ 0) = delay.codes.take 2 := by
  have lowered := lower_eq_ok encodable.saluCycles.1
  have said := encodable.reaches.attachImm_conditions
  obtain ⟨valuCycles, transCycles⟩ := encodable.cycles_of_scratch rfl
  obtain ⟨skips, fields⟩ := fields_of_foldl (List.length_take_le 2 _)
    (fun code member => encodable.small_codes code (List.mem_of_mem_take member))
    encodable.foldl_codes
  refine ⟨_, delay.conditions, lowered, rfl, ?_, skips, fields⟩
  rw [delay?_immediate, said, valuCycles, transCycles]

/-- With three dependencies the scalar one is left out, and with two the scalar one is cut. -/
theorem crowded_delay_reads_back :
    (∃ instr imm, (⟨2, 3, 1, 7, 2⟩ : Delay).lower = .ok instr ∧ instr.imm? = some imm ∧
      instr.delay? = some ⟨2, 3, 1, 7, 0⟩ ∧ [imm % 16, imm / 128].filter (· ≠ 0) = [5, 2]) ∧
    ∃ instr imm, (⟨5, 0, 3, 127, 90⟩ : Delay).lower = .ok instr ∧ instr.imm? = some imm ∧
      instr.delay? = some ⟨5, 0, 3, 127, 3⟩ ∧ [imm % 16, imm / 128].filter (· ≠ 0) = [7, 11] := by
  constructor
  · obtain ⟨instr, imm, lowered, held, read, _, fields⟩ := @lower_reads_back ⟨2, 3, 1, 7, 2⟩
      ⟨by decide, by decide, by decide, by decide, by decide⟩
    exact ⟨instr, imm, lowered, held, read, fields⟩
  · obtain ⟨instr, imm, lowered, held, read, _, fields⟩ := @lower_reads_back ⟨5, 0, 3, 127, 90⟩
      ⟨by decide, by decide, by decide, by decide, by decide⟩
    exact ⟨instr, imm, lowered, held, read, fields⟩

end WaveHazard.Wait.Delay
