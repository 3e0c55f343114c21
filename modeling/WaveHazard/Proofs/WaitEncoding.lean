import WaveHazard.Proofs.JoinOrder
import WaveHazard.Proofs.PackedFields
import WaveHazard.Wait.Lowering

/-! # Waits are read back as they were written

A requirement is lowered to code, and the instructions of the code are read back one by one. What
they ask for together is what was lowered, up to the thresholds that do not fit into their fields.
-/

namespace WaveHazard

open Machine Wait

namespace Machine.Generation

/-- Whether there are instructions that wait for a counter: those before GFX12 know nothing of the
counters that were split off then. -/
def waitsOn (generation : Generation) (counter : Counter) : Bool :=
  .gfx12 ≤ generation || [Counter.vs, .exp, .lgkm, .vm].contains counter

end Machine.Generation

namespace Wait

variable {generation : Generation}

/-- A requirement and what an instruction waits for. -/
def withWait (generation : Generation) (wait : Requirement) (instr : Instr) : Requirement :=
  match instr.wait? generation with
  | some more => wait.combine more
  | none => wait

/-- What code waits for, read back instruction by instruction. -/
def awaited (generation : Generation) (code : List Instr) : Requirement :=
  code.foldl (withWait generation) ∅

theorem Requirement.combine_empty (wait : Requirement) : wait.combine ∅ = wait :=
  ext_get fun counter => by
    rw [get_combine, get_empty]
    cases wait.get counter <;> rfl

theorem Requirement.empty_combine (wait : Requirement) : combine ∅ wait = wait :=
  (combine_comm ∅ wait).trans wait.combine_empty

/-- An instruction adds what it waits for by itself. -/
theorem withWait_eq_combine (wait : Requirement) (instr : Instr) :
    withWait generation wait instr = wait.combine (withWait generation ∅ instr) := by
  unfold withWait
  cases instr.wait? generation with
  | none => exact wait.combine_empty.symm
  | some more => exact congrArg wait.combine more.empty_combine.symm

/-- Code adds what it waits for by itself. -/
theorem foldl_withWait (wait : Requirement) (code : List Instr) :
    code.foldl (withWait generation) wait = wait.combine (awaited generation code) := by
  unfold awaited
  induction code generalizing wait with
  | nil => exact wait.combine_empty.symm
  | cons instr rest ih =>
      rw [List.foldl_cons, List.foldl_cons, ih, ih (withWait generation ∅ instr),
        withWait_eq_combine wait, Requirement.combine_assoc]

theorem awaited_append (first second : List Instr) :
    awaited generation (first ++ second) =
      (awaited generation first).combine (awaited generation second) :=
  List.foldl_append.trans (foldl_withWait _ second)

/-- One wait waits for what it is read back as. -/
theorem awaited_singleton {instr : Instr} {wait : Requirement}
    (waits : instr.wait? generation = some wait) : awaited generation [instr] = wait := by
  change withWait generation ∅ instr = wait
  unfold withWait
  rw [waits]
  exact wait.empty_combine

theorem awaited_cons {instr : Instr} {wait : Requirement} (code : List Instr)
    (waits : instr.wait? generation = some wait) :
    awaited generation (instr :: code) = wait.combine (awaited generation code) := by
  rw [← List.singleton_append, awaited_append, awaited_singleton waits]

/-- What code waits for, one of its instructions waits for. -/
theorem exists_of_get_awaited {code : List Instr} {counter : Counter} {bound : Nat}
    (asked : (awaited generation code).get counter = some bound) :
    ∃ instr ∈ code, ∃ wait, instr.wait? generation = some wait ∧ wait.get counter = some bound := by
  induction code generalizing bound with
  | nil => cases counter <;> cases asked
  | cons instr rest ih =>
      have later {bound : Nat} (asked : (awaited generation rest).get counter = some bound) :
          ∃ other ∈ instr :: rest, ∃ wait, other.wait? generation = some wait ∧
            wait.get counter = some bound := by
        obtain ⟨other, member, found⟩ := ih asked
        exact ⟨other, List.mem_cons_of_mem _ member, found⟩
      cases waits : instr.wait? generation with
      | none =>
          apply later
          rw [← asked]
          unfold awaited
          rw [List.foldl_cons, withWait, waits]
      | some wait =>
          rw [awaited_cons rest waits, Requirement.get_combine] at asked
          cases here : wait.get counter with
          | none =>
              rw [here] at asked
              exact later asked
          | some mine =>
              cases there : (awaited generation rest).get counter with
              | none =>
                  rw [here, there] at asked
                  exact ⟨instr, List.mem_cons_self, wait, waits, here.trans asked⟩
              | some theirs =>
                  rw [here, there] at asked
                  cases asked
                  rcases Nat.le_total mine theirs with least | least
                  · rw [Nat.min_eq_left least]
                    exact ⟨instr, List.mem_cons_self, wait, waits, here⟩
                  · rw [Nat.min_eq_right least]
                    exact later there

namespace Requirement

variable {wait : Requirement}

/-- Whether every threshold fits into its field. -/
def FitsFields (generation : Generation) (wait : Requirement) : Prop :=
  ∀ counter bound, wait.get counter = some bound → bound ≤ generation.maxThreshold counter

/-- Clamped thresholds fit into their fields. -/
theorem fitsFields_clamp (generation : Generation) (wait : Requirement) :
    FitsFields generation (wait.clamp generation) := by
  intro counter bound asked
  unfold clamp at asked
  rw [get_ofFn, Option.map_eq_some_iff] at asked
  obtain ⟨wanted, _, rfl⟩ := asked
  split
  · exact Nat.zero_le _
  · omega

/-- Forgetting a threshold leaves the others in their fields. -/
theorem FitsFields.set_none (fits : FitsFields generation wait) (counter : Counter) :
    FitsFields generation (wait.set counter none) := by
  intro other bound asked
  rw [get_set] at asked
  split at asked
  · cases asked
  · exact fits other bound asked

/-- No threshold that fits takes more than the six bits of the widest field. -/
theorem FitsFields.lt {counter : Counter} {bound : Nat} (fits : FitsFields generation wait)
    (asked : wait.get counter = some bound) : bound < 63 := by
  have small := fits counter bound asked
  unfold Generation.maxThreshold Generation.fieldMax at small
  split at small <;> (try split at small) <;> omega

/-- The counters of the packed immediate have fields in all generations. -/
theorem FitsFields.packed (fits : FitsFields generation wait) : FitsPacked generation wait := by
  have present : ∀ counter ∈ [Counter.exp, .lgkm, .vm], 0 < generation.fieldMax counter := by
    cases generation <;> decide
  intro counter member bound asked
  have small := fits counter bound asked
  unfold Generation.maxThreshold at small
  have := present counter member
  omega

/-- A threshold that fits is not the byte of an absent one. -/
theorem ofSingle_of_lt {counter : Counter} {bound : Nat} (small : bound < 63) :
    ofSingle counter bound = set ∅ counter (some bound) := by
  unfold ofSingle Threshold.ofByte
  rw [if_pos (Nat.lt_trans small (by decide))]

/-- A pair of thresholds that fit is read back as both. -/
theorem ofPair_of_lt {counter : Counter} {high low : Nat} (highFits : high < 63)
    (lowFits : low < 63) :
    ofPair counter (high * 256 + low) =
      (set ∅ counter (some high)).set .lgkm (some low) := by
  have upper : (high * 256 + low) / 256 % 64 = high := by omega
  have lower : (high * 256 + low) % 64 = low := by omega
  unfold ofPair
  rw [upper, lower, ofField_of_ne (by omega), ofField_of_ne (by omega)]

/-- The pair and what remains make up the requirement. -/
theorem awaited_takePair (fits : FitsFields generation wait) {high : Counter} (apart : high ≠ .lgkm)
    {opcode : Opcode}
    (decoded : ∀ imm, (Instr.immediate opcode imm).wait? generation = some (.ofPair high imm)) :
    (awaited generation (wait.takePair high opcode).1).combine (wait.takePair high opcode).2 =
      wait := by
  unfold takePair
  split
  · rename_i first second firstAsked secondAsked
    have shared : wait.get .lgkm = some second := secondAsked
    rw [awaited_singleton (decoded _), ofPair_of_lt (fits.lt firstAsked) (fits.lt shared)]
    refine ext_get fun counter => ?_
    simp only [get_combine, get_set, get_empty]
    by_cases low : counter = .lgkm
    · subst low
      rw [if_pos rfl, if_pos rfl]
      exact shared.symm
    · rw [if_neg low, if_neg low]
      by_cases same : counter = high
      · subst same
        rw [if_pos rfl, if_pos rfl]
        exact firstAsked.symm
      · rw [if_neg same, if_neg same]
        cases wait.get counter <;> rfl
  · exact wait.empty_combine

/-- What is left of a requirement behind a compound wait fits into its fields. -/
theorem FitsFields.takePair (fits : FitsFields generation wait) (high : Counter) (opcode : Opcode) :
    FitsFields generation (wait.takePair high opcode).2 := by
  unfold Requirement.takePair
  split
  · exact (fits.set_none high).set_none .lgkm
  · exact fits

/-- A wait for one counter is read back as such. -/
theorem wait?_singleOpcode (counter : Counter) (bound : Nat) :
    (Instr.immediate (singleOpcode counter) bound).wait? generation =
      some (.ofSingle counter bound) := by
  cases counter <;> rfl

/-- The thresholds of some counters are that of the first one and those of the rest. -/
theorem only_cons (wait : Requirement) (first : Counter) (rest : List Counter) :
    wait.only (first :: rest).contains =
      (set ∅ first (wait.get first)).combine (wait.only rest.contains) := by
  refine ext_get fun counter => ?_
  rw [get_combine, get_only, get_only, get_set, get_empty, List.contains_cons]
  by_cases same : counter = first
  · subst same
    rw [if_pos rfl, beq_self_eq_true, Bool.true_or, if_pos rfl]
    split
    · exact (Threshold.stricter_self _).symm
    · cases wait.get counter <;> rfl
  · rw [if_neg same, beq_false_of_ne same, Bool.false_or]
    rfl

/-- The thresholds of all counters are the whole requirement. -/
theorem only_all (wait : Requirement) : wait.only Counter.all.contains = wait :=
  ext_get fun counter => by rw [get_only, List.contains_iff_mem.mpr counter.mem_all, if_pos rfl]

/-- Waits for single counters make up the requirement on these counters. -/
theorem awaited_singles (fits : FitsFields generation wait) (counters : List Counter) :
    awaited generation ((counters.filterMap fun counter =>
        (wait.get counter).map fun n => (counter, n)).map fun (counter, n) =>
          .immediate (singleOpcode counter) n) = wait.only counters.contains := by
  induction counters with
  | nil => exact ext_get fun counter => by rw [get_only]; exact get_empty counter
  | cons first rest ih =>
      rw [only_cons, ← ih]
      cases asked : wait.get first with
      | none =>
          have nothing : set ∅ first none = ∅ := ext_get fun counter => by
            rw [get_set, get_empty, ite_self]
          rw [List.filterMap_cons, asked, nothing, empty_combine]
          rfl
      | some bound =>
          rw [List.filterMap_cons, asked]
          dsimp only [Option.map]
          rw [List.map_cons, awaited_cons _ (wait?_singleOpcode first bound),
            ofSingle_of_lt (fits.lt asked)]

/-- From GFX12 on the code waits for exactly what is lowered. -/
theorem awaited_lowerSplit (fits : FitsFields generation wait) :
    awaited generation wait.lowerSplit = wait := by
  have loads := awaited_takePair fits (by decide : Counter.vm ≠ .lgkm)
    (fun _ => rfl : ∀ imm, (Instr.immediate .sWaitLoadcntDscnt imm).wait? generation = _)
  have left := fits.takePair .vm .sWaitLoadcntDscnt
  have stores := awaited_takePair left (by decide : Counter.vs ≠ .lgkm)
    (fun _ => rfl : ∀ imm, (Instr.immediate .sWaitStorecntDscnt imm).wait? generation = _)
  have singles := awaited_singles (left.takePair .vs .sWaitStorecntDscnt) Counter.all
  unfold lowerSplit toList
  dsimp only
  rw [awaited_append, awaited_append, singles, only_all, combine_assoc, stores, loads]

/-- What a split wait is lowered to are waits. -/
theorem isSome_wait?_lowerSplit {instr : Instr} (member : instr ∈ wait.lowerSplit) :
    (instr.wait? generation).isSome := by
  have pair {wait : Requirement} {high : Counter} {opcode : Opcode}
      (decoded : ∀ imm, (Instr.immediate opcode imm).wait? generation = some (.ofPair high imm))
      (member : instr ∈ (wait.takePair high opcode).1) : (instr.wait? generation).isSome := by
    unfold takePair at member
    split at member
    · rw [List.mem_singleton.mp member, decoded]
      rfl
    · cases member
  unfold lowerSplit at member
  rcases List.mem_append.mp member with pairs | single
  · rcases List.mem_append.mp pairs with loads | stores
    · exact pair (fun _ => rfl) loads
    · exact pair (fun _ => rfl) stores
  · obtain ⟨⟨counter, bound⟩, _, rfl⟩ := List.mem_map.mp single
    rw [wait?_singleOpcode]
    rfl

/-- What follows the wait for stores before GFX12: one packed wait, if there is anything to pack. -/
theorem awaited_pack (fits : FitsFields generation wait) {stores code : List Instr}
    (lowered : (if wait.isEmpty then pure stores else do
      return stores ++ [.immediate .sWaitcnt (← wait.pack generation)]) = Except.ok code) :
    ∃ packed, code = stores ++ packed ∧ (∀ instr ∈ packed, (instr.wait? generation).isSome) ∧
      awaited generation packed = wait.only [Counter.exp, .lgkm, .vm].contains := by
  split at lowered
  · rename_i empty
    cases lowered
    refine ⟨[], (List.append_nil _).symm, fun _ member => absurd member List.not_mem_nil, ?_⟩
    refine ext_get fun counter => ?_
    have unset := List.all_eq_true.mp empty counter counter.mem_all
    rw [Bool.not_eq_true', isSet, Option.isSome_eq_false_iff, Option.isNone_iff_eq_none] at unset
    rw [get_only, unset, ite_self]
    exact get_empty counter
  · obtain ⟨imm, packed, done⟩ := Outcome.bind_eq_ok.mp lowered
    cases done
    have waits : (Instr.immediate .sWaitcnt imm).wait? generation =
        some (.ofPacked generation imm) := rfl
    refine ⟨_, rfl, fun instr member => ?_, ?_⟩
    · rw [List.mem_singleton.mp member, waits]
      rfl
    · rw [awaited_singleton waits,
        fits.packed.ofPacked_of_pack (Nat.le_refl _) Iff.rfl packed]

/-- Before GFX12 the code waits for exactly what is lowered, as far as there are counters. -/
theorem awaited_lowerPacked (fits : FitsFields generation wait) {code : List Instr}
    (lowered : wait.lowerPacked generation = .ok code) :
    (∀ instr ∈ code, (instr.wait? generation).isSome) ∧
      awaited generation code = wait.only [Counter.vs, .exp, .lgkm, .vm].contains := by
  have rest : (wait.set .vs none).only [Counter.exp, .lgkm, .vm].contains =
      wait.only [Counter.exp, .lgkm, .vm].contains :=
    ext_get fun counter => by cases counter <;> rfl
  rw [only_cons, ← rest]
  unfold lowerPacked at lowered
  dsimp only at lowered
  split at lowered
  · rename_i absent
    obtain ⟨packed, whole, waits, reads⟩ := awaited_pack (fits.set_none .vs) lowered
    rw [List.nil_append] at whole
    subst whole
    have nothing : set ∅ .vs (wait.get .vs) = ∅ := ext_get fun counter => by
      change (set ∅ .vs wait.vs).get counter = _
      rw [absent, get_set, get_empty, ite_self]
    exact ⟨waits, by rw [nothing, empty_combine, reads]⟩
  · rename_i bound present
    split at lowered
    · obtain ⟨packed, rfl, waits, reads⟩ := awaited_pack (fits.set_none .vs) lowered
      have stored : wait.get .vs = some bound := present
      refine ⟨fun instr member => ?_, ?_⟩
      · rcases List.mem_append.mp member with store | packs
        · rw [List.mem_singleton.mp store]
          rfl
        · exact waits instr packs
      · have stores (instr : Instr)
            (decoded : instr.wait? generation = some (.ofSingle .vs bound)) :
            awaited generation [instr] = set ∅ .vs (some bound) := by
          rw [awaited_singleton decoded, ofSingle_of_lt (fits.lt stored)]
        rw [awaited_append, reads, stores _ rfl, stored]
    · cases lowered

/-- The code of a requirement consists of waits, and what they ask for is the requirement with the
thresholds that are too large replaced by 0. -/
theorem awaited_lower {code : List Instr} (lowered : wait.lower generation = .ok code) :
    (∀ instr ∈ code, (instr.wait? generation).isSome) ∧
      awaited generation code = (wait.clamp generation).only generation.waitsOn := by
  have fits := fitsFields_clamp generation wait
  unfold lower at lowered
  dsimp only at lowered
  split at lowered
  · rename_i latest
    cases lowered
    refine ⟨fun instr => isSome_wait?_lowerSplit, (awaited_lowerSplit fits).trans ?_⟩
    refine ext_get fun counter => ?_
    rw [get_only, Generation.waitsOn, decide_eq_true latest, Bool.true_or, if_pos rfl]
  · rename_i older
    obtain ⟨waits, reads⟩ := awaited_lowerPacked fits lowered
    refine ⟨waits, reads.trans (ext_get fun counter => ?_)⟩
    rw [get_only, get_only, Generation.waitsOn, decide_eq_false older, Bool.false_or]

end Requirement

end Wait

end WaveHazard
