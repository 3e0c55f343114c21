import WaveHazard.Proofs.ClauseMembers
import WaveHazard.Proofs.Validation

/-! # Which instructions a clause admits

Instructions are offered to a clause one after the other. One is admitted exactly if its registers
do not conflict with those of the first instruction or of one that has been admitted before it. The
clause only remembers which slots its members have read and written, not by whom; `Clause.Records`
ties that to the members, and offering an instruction keeps it. An instruction that is turned down
leaves no trace.
-/

namespace WaveHazard

open Machine Outcome

namespace Machine

/-- The number is that of one of the dwords of a register. -/
def Register.Covers (register : Register) (cls : RegisterClass) (number : Nat) : Prop :=
  register.number ≤ number ∧ number < register.number + cls.size

namespace Instr

/-- One of the operands covers the register with the number. -/
def Reads (instr : Instr) (number : Nat) : Prop :=
  ∃ register cls, .reg register cls ∈ instr.operands ∧ register.Covers cls number

/-- One of the definitions covers the register with the number. -/
def Writes (instr : Instr) (number : Nat) : Prop :=
  ∃ definition ∈ instr.definitions, definition.register.Covers definition.cls number

/-- All the registers of the instruction lie inside of the register file. -/
def InFile (instr : Instr) : Prop :=
  ∀ number, instr.Reads number ∨ instr.Writes number → number < slotCount

/-- The later instruction reads a register the earlier one writes, or writes one the earlier one
reads or writes. -/
def Conflicts (earlier later : Instr) : Prop :=
  ∃ number, (later.Reads number ∧ earlier.Writes number) ∨
    (later.Writes number ∧ (earlier.Reads number ∨ earlier.Writes number))

end Instr

/-- A register and those behind it are numbered one after the other. -/
theorem Register.advance_eq_ok {register : Register} {n : Nat} {slot : Slot} :
    register.advance n = .ok slot ↔ register.number + n = slot.val := by
  constructor
  · intro advanced
    unfold advance at advanced
    dsimp only at advanced
    split at advanced
    · split at advanced
      · cases advanced
        rfl
      · cases advanced
    · cases advanced
  · intro number
    rw [advance_of_lt (number ▸ slot.isLt)]
    exact congrArg Except.ok (Fin.ext number)

/-- The slots of a register inside of the file are those whose numbers it covers. -/
theorem ok_mem_slotsFrom {register : Register} {cls : RegisterClass} {slot : Slot} :
    .ok slot ∈ slotsFrom register cls.size ↔ register.Covers cls slot.val := by
  unfold slotsFrom Register.Covers
  simp only [List.mem_map, List.mem_range, Register.advance_eq_ok]
  constructor
  · rintro ⟨n, below, number⟩
    omega
  · rintro ⟨least, below⟩
    exact ⟨slot.val - register.number, by omega, by omega⟩

/-- A register whose numbers are all inside of the file resolves. -/
theorem resolve_of_covers {register : Register} {cls : RegisterClass}
    (inside : ∀ number, register.Covers cls number → number < slotCount) :
    Resolve (slotsFrom register cls.size) := by
  intro slot member
  obtain ⟨n, listed, rfl⟩ := List.mem_map.mp member
  have below := List.mem_range.mp listed
  exact ⟨_, Register.advance_of_lt (inside _ ⟨by omega, by omega⟩)⟩

/-- The slots that an instruction reads are those its operands cover. -/
theorem ok_mem_reads {instr : Instr} {slot : Slot} :
    .ok slot ∈ instr.reads ↔ instr.Reads slot.val := by
  constructor
  · intro member
    obtain ⟨operand, listed, there⟩ := List.mem_flatMap.mp member
    cases operand with
    | reg register cls => exact ⟨register, cls, listed, ok_mem_slotsFrom.mp there⟩
    | const value => exact absurd there List.not_mem_nil
    | undef => exact absurd there List.not_mem_nil
  · rintro ⟨register, cls, listed, covers⟩
    exact List.mem_flatMap.mpr ⟨_, listed, ok_mem_slotsFrom.mpr covers⟩

/-- The slots that an instruction writes are those its definitions cover. -/
theorem ok_mem_writes {instr : Instr} {slot : Slot} :
    .ok slot ∈ instr.writes ↔ instr.Writes slot.val := by
  unfold Instr.writes Instr.Writes
  simp only [List.mem_flatMap, Definition.slots, ok_mem_slotsFrom]

/-- Where no slot is a fault the slots are the ones that are found. -/
theorem slots_of_sequenceSlots {slots : List (Except Fault Slot)} {found : List Slot}
    (inside : sequenceSlots slots = .ok found) : slots = found.map .ok := by
  have all := mapM_eq_ok.mp inside
  induction all with
  | nil => rfl
  | cons here rest ih => rw [List.map_cons, ← ih (mapM_eq_ok.mpr rest), ← here, id]

/-- A footprint has all slots of an instruction, in order. -/
theorem slots_of_footprint {instr : Instr} {touched : Footprint}
    (touches : instr.footprint = .ok touched) :
    instr.reads = touched.reads.map .ok ∧ instr.writes = touched.writes.map .ok := by
  obtain ⟨read, found, touches⟩ := bind_eq_ok.mp touches
  obtain ⟨written, wrote, touches⟩ := bind_eq_ok.mp touches
  cases touches
  exact ⟨slots_of_sequenceSlots found, slots_of_sequenceSlots wrote⟩

/-- An instruction inside of the file has a footprint, which holds what it reads and writes. -/
theorem Instr.InFile.footprint {instr : Instr} (inside : instr.InFile) :
    ∃ touched, instr.footprint = .ok touched ∧
      (∀ slot, slot ∈ touched.reads ↔ instr.Reads slot.val) ∧
        ∀ slot, slot ∈ touched.writes ↔ instr.Writes slot.val := by
  have reads : Resolve instr.reads := resolve_flatMap fun operand listed => by
    cases operand with
    | reg register cls =>
        exact resolve_of_covers fun number covers => inside number (.inl ⟨_, _, listed, covers⟩)
    | const value => exact fun _ member => nomatch member
    | undef => exact fun _ member => nomatch member
  have writes : Resolve instr.writes := resolve_flatMap fun definition listed =>
    resolve_of_covers fun number covers => inside number (.inr ⟨_, listed, covers⟩)
  obtain ⟨read, found⟩ := reads.sequence
  obtain ⟨written, wrote⟩ := writes.sequence
  refine ⟨⟨read, written⟩, bind_eq_ok.mpr ⟨_, found, bind_eq_ok.mpr ⟨_, wrote, rfl⟩⟩, ?_, ?_⟩
  · intro slot
    rw [← ok_mem_reads, slots_of_sequenceSlots found]
    simp
  · intro slot
    rw [← ok_mem_writes, slots_of_sequenceSlots wrote]
    simp

end Machine

namespace Hazard

/-- A search through slots inside of the file is the search through the slots. -/
theorem anyM_ok (test : Slot → Bool) (found : List Slot) :
    ((found.map .ok).anyM fun slot : Except Fault Slot => do return test (← slot)) =
      .ok (found.any test) := by
  induction found with
  | nil => rfl
  | cons slot rest ih =>
      have first : (do return test (← Except.ok slot) : Except Fault Bool) = .ok (test slot) := rfl
      rw [List.map_cons, List.anyM, List.any_cons, first]
      cases test slot with
      | true => rfl
      | false => exact ih

namespace Clause

/-- Offer instructions to the clause one after the other: the answers, and the clause in the end. -/
def offerAll : Clause → List Instr → Except Fault (List Bool × Clause)
  | clause, [] => .ok ([], clause)
  | clause, instr :: rest => do
      let (answer, next) ← clause.offer instr
      let (answers, last) ← offerAll next rest
      return (answer :: answers, last)

/-- The instructions whose answer is that they are admitted. -/
def admitted (instrs : List Instr) (answers : List Bool) : List Instr :=
  ((instrs.zip answers).filter Prod.snd).map Prod.fst

/-- No member conflicts with a later one, and the clause knows which slots they read and write, and
no others. -/
structure Records (clause : Clause) (members : List Instr) : Prop where
  reads : ∀ slot, slot ∈ clause.reads ↔ ∃ member ∈ members, member.Reads slot.val
  writes : ∀ slot, slot ∈ clause.writes ↔ ∃ member ∈ members, member.Writes slot.val
  apart : members.Pairwise fun earlier later => ¬earlier.Conflicts later

variable {clause last : Clause} {members instrs : List Instr} {instr : Instr}

/-- A clause begins with the registers of its first instruction. -/
theorem records_ofFirst (inside : instr.InFile) :
    ∃ start, ofFirst instr = .ok start ∧ start.Records [instr] := by
  obtain ⟨touched, touches, reading, writing⟩ := inside.footprint
  refine ⟨touched, touches, fun slot => ?_, fun slot => ?_, List.pairwise_singleton _ _⟩
  · simp only [reading, List.mem_singleton, exists_eq_left]
  · simp only [writing, List.mem_singleton, exists_eq_left]

/-- The test for conflicts of an instruction that has a footprint looks at all of it. -/
theorem conflicts_of_footprint (clause : Clause) {touched : Footprint}
    (touches : instr.footprint = .ok touched) :
    ∃ conflict, clause.conflicts instr = .ok conflict ∧
      (conflict = true ↔ (∃ slot ∈ touched.reads, slot ∈ clause.writes) ∨
        ∃ slot ∈ touched.writes, slot ∈ clause.writes ∨ slot ∈ clause.reads) := by
  obtain ⟨reads, writes⟩ := slots_of_footprint touches
  have tested : clause.conflicts instr =
      .ok (touched.reads.any (fun slot => slot ∈ clause.writes) ||
        touched.writes.any fun slot => slot ∈ clause.writes ∨ slot ∈ clause.reads) := by
    unfold Clause.conflicts
    rw [reads, writes, anyM_ok fun slot => decide (slot ∈ clause.writes)]
    cases touched.reads.any fun slot => decide (slot ∈ clause.writes) with
    | true => rfl
    | false => exact anyM_ok (fun slot => decide (slot ∈ clause.writes ∨ slot ∈ clause.reads)) _
  refine ⟨_, tested, ?_⟩
  simp only [Bool.or_eq_true, List.any_eq_true, decide_eq_true_eq]

/-- An instruction inside of the file conflicts with a clause if it does with one of its members. -/
theorem Records.conflicts (records : clause.Records members) (inside : instr.InFile) :
    ∃ conflict, clause.conflicts instr = .ok conflict ∧
      (conflict = true ↔ ∃ member ∈ members, member.Conflicts instr) := by
  obtain ⟨touched, touches, reading, writing⟩ := inside.footprint
  obtain ⟨conflict, tested, overlaps⟩ := conflicts_of_footprint clause touches
  refine ⟨conflict, tested, ?_⟩
  simp only [overlaps, reading, writing, records.reads, records.writes]
  constructor
  · rintro (⟨slot, read, member, listed, wrote⟩ |
      ⟨slot, written, ⟨member, listed, wrote⟩ | ⟨member, listed, read⟩⟩)
    · exact ⟨member, listed, slot.val, .inl ⟨read, wrote⟩⟩
    · exact ⟨member, listed, slot.val, .inr ⟨written, .inr wrote⟩⟩
    · exact ⟨member, listed, slot.val, .inr ⟨written, .inl read⟩⟩
  · rintro ⟨member, listed, number, ⟨read, wrote⟩ | ⟨written, touches⟩⟩
    · exact .inl ⟨⟨number, inside number (.inl read)⟩, read, member, listed, wrote⟩
    · refine .inr ⟨⟨number, inside number (.inr written)⟩, written, ?_⟩
      exact touches.symm.imp (fun wrote => ⟨member, listed, wrote⟩)
        fun read => ⟨member, listed, read⟩

/-- An instruction that conflicts with no member becomes one. -/
theorem Records.extend (records : clause.Records members) (inside : instr.InFile)
    (free : ∀ member ∈ members, ¬member.Conflicts instr) :
    ∃ more, clause.extend instr = .ok (some more) ∧ more.Records (members ++ [instr]) := by
  obtain ⟨conflict, tested, conflicting⟩ := records.conflicts inside
  have noConflict : conflict = false := by
    rw [← Bool.not_eq_true, conflicting]
    exact fun ⟨member, listed, conflicts⟩ => free member listed conflicts
  subst noConflict
  obtain ⟨touched, touches, reading, writing⟩ := inside.footprint
  refine ⟨_, bind_eq_ok.mpr ⟨false, tested, bind_eq_ok.mpr ⟨touched, touches, rfl⟩⟩, ?_, ?_, ?_⟩
  · intro slot
    simp only [List.mem_append, records.reads, reading, List.mem_singleton, or_and_right, exists_or,
      exists_eq_left]
  · intro slot
    simp only [List.mem_append, records.writes, writing, List.mem_singleton, or_and_right,
      exists_or, exists_eq_left]
  · refine List.pairwise_append.mpr ⟨records.apart, List.pairwise_singleton _ _, ?_⟩
    intro member listed other new
    rw [List.mem_singleton.mp new]
    exact free member listed

/-- An offer is turned down for a conflict with a member and changes nothing, or there is no
conflict and the instruction becomes a member. -/
theorem Records.offer (records : clause.Records members) (inside : instr.InFile) :
    (∃ member ∈ members, member.Conflicts instr) ∧ clause.offer instr = .ok (false, clause) ∨
      (∀ member ∈ members, ¬member.Conflicts instr) ∧
        ∃ more, clause.offer instr = .ok (true, more) ∧ more.Records (members ++ [instr]) := by
  by_cases conflicting : ∃ member ∈ members, member.Conflicts instr
  · obtain ⟨conflict, tested, iff⟩ := records.conflicts inside
    rw [iff.mpr conflicting] at tested
    refine .inl ⟨conflicting, bind_eq_ok.mpr ⟨none, bind_eq_ok.mpr ⟨true, tested, rfl⟩, rfl⟩⟩
  · have free : ∀ member ∈ members, ¬member.Conflicts instr :=
      fun member listed conflicts => conflicting ⟨member, listed, conflicts⟩
    obtain ⟨more, extended, records⟩ := records.extend inside free
    exact .inr ⟨free, more, bind_eq_ok.mpr ⟨some more, extended, rfl⟩, records⟩

/-- A series of offers is answered one by one, each by whether there is a conflict with a member of
the clause or with an instruction that was admitted before. -/
theorem Records.offerAll (records : clause.Records members)
    (inside : ∀ instr ∈ instrs, instr.InFile) :
    ∃ answers last, clause.offerAll instrs = .ok (answers, last) ∧
      answers.length = instrs.length ∧ last.Records (members ++ admitted instrs answers) ∧
      ∀ k instr, instrs[k]? = some instr → (answers[k]? = some true ↔
        ∀ earlier ∈ members ++ admitted (instrs.take k) answers, ¬earlier.Conflicts instr) := by
  induction instrs generalizing clause members with
  | nil => exact ⟨[], clause, rfl, rfl, by simpa [admitted] using records, by simp⟩
  | cons instr rest ih =>
      obtain ⟨here, later⟩ := List.forall_mem_cons.mp inside
      rcases records.offer here with ⟨conflicting, offered⟩ | ⟨free, more, offered, extended⟩
      · obtain ⟨answers, last, run, counted, recorded, each⟩ := ih records later
        refine ⟨false :: answers, last,
          bind_eq_ok.mpr ⟨_, offered, bind_eq_ok.mpr ⟨_, run, rfl⟩⟩, by simp [counted],
          recorded, ?_⟩
        intro k next found
        cases k with
        | zero =>
            cases found
            simpa [admitted] using conflicting
        | succ k => exact each k next found
      · obtain ⟨answers, last, run, counted, recorded, each⟩ := ih extended later
        refine ⟨true :: answers, last,
          bind_eq_ok.mpr ⟨_, offered, bind_eq_ok.mpr ⟨_, run, rfl⟩⟩, by simp [counted], ?_, ?_⟩
        · rw [List.append_assoc] at recorded
          exact recorded
        · intro k next found
          cases k with
          | zero =>
              cases found
              simpa [admitted] using free
          | succ k =>
              have told := each k next found
              rw [List.append_assoc] at told
              exact told

/-- Without an instruction that is turned down all the others get the same answers. -/
theorem offerAll_eraseIdx {answers : List Bool} {k : Nat}
    (offered : clause.offerAll instrs = .ok (answers, last)) (refused : answers[k]? = some false) :
    clause.offerAll (instrs.eraseIdx k) = .ok (answers.eraseIdx k, last) := by
  induction instrs generalizing clause answers k with
  | nil =>
      cases offered
      cases refused
  | cons instr rest ih =>
      obtain ⟨⟨answer, next⟩, first, offered⟩ := bind_eq_ok.mp offered
      obtain ⟨⟨others, final⟩, run, offered⟩ := bind_eq_ok.mp offered
      cases offered
      cases k with
      | zero =>
          cases refused
          obtain ⟨extended, _, answered⟩ := bind_eq_ok.mp first
          cases extended with
          | none =>
              cases answered
              exact run
          | some more => cases answered
      | succ k =>
          exact bind_eq_ok.mpr ⟨_, first, bind_eq_ok.mpr ⟨_, ih run refused, rfl⟩⟩

/-- Whatever is offered to the clause of a first instruction, with registers inside of the file, is
admitted exactly if it reads no register that the first instruction or one admitted before has
written, and writes none that they have read or written. One that is turned down has no influence on
the answers of the others. So no member of the clause conflicts with a later one. -/
theorem admits_what_does_not_conflict (first : Instr) (rest : List Instr)
    (inside : ∀ instr ∈ first :: rest, instr.InFile) :
    ∃ start answers last, ofFirst first = .ok start ∧
      start.offerAll rest = .ok (answers, last) ∧ answers.length = rest.length ∧
      (∀ k instr, rest[k]? = some instr → (answers[k]? = some true ↔
        ∀ earlier ∈ first :: admitted (rest.take k) answers, ¬earlier.Conflicts instr)) ∧
      (∀ k, answers[k]? = some false →
        start.offerAll (rest.eraseIdx k) = .ok (answers.eraseIdx k, last)) ∧
      (first :: admitted rest answers).Pairwise fun earlier later => ¬earlier.Conflicts later := by
  obtain ⟨here, later⟩ := List.forall_mem_cons.mp inside
  obtain ⟨start, begun, records⟩ := records_ofFirst here
  obtain ⟨answers, last, run, counted, recorded, each⟩ := records.offerAll later
  exact ⟨start, answers, last, begun, run, counted, each, fun k => offerAll_eraseIdx run,
    recorded.apart⟩

namespace ThreeLoads

/-- A load of one dword, by its destination and its address among the vector registers. -/
def load (destination address : Nat) : Instr where
  opcode := .globalLoadDword
  operands := [.reg ⟨256 + address⟩ (.vector 2)]
  definitions := [⟨⟨256 + destination⟩, .vector 1⟩]

/-- A load of vector registers that there are is inside of the file. -/
theorem inFile_load {destination address : Nat} (written : destination < 256)
    (read : address + 1 < 256) : (load destination address).InFile := by
  rintro number (⟨register, cls, listed, covers⟩ | ⟨definition, listed, covers⟩)
  · cases List.mem_singleton.mp listed
    exact Nat.lt_of_lt_of_le covers.2 (Nat.add_le_add_left read 256)
  · cases List.mem_singleton.mp listed
    exact Nat.lt_of_lt_of_le covers.2 (Nat.add_le_add_left written 256)

/-- The first one writes what the clause reads, the second one what it writes. -/
def rest : List Instr := [load 11 12, load 0 12, load 4 12]

theorem inFile : ∀ instr ∈ load 0 10 :: rest, instr.InFile := by
  unfold rest
  simp [inFile_load]

end ThreeLoads

open ThreeLoads in
/-- Two loads that are turned down do not keep the third one from being admitted. -/
theorem third_load_admitted : ∃ start last, ofFirst (load 0 10) = .ok start ∧
    start.offerAll rest = .ok ([false, false, true], last) ∧
    start.offerAll [load 0 12, load 4 12] = .ok ([false, true], last) ∧
    ¬(load 0 10).Conflicts (load 4 12) := by
  obtain ⟨start, answers, last, begun, run, _, each, alone, _⟩ :=
    admits_what_does_not_conflict (load 0 10) rest inFile
  cases begun
  cases run
  exact ⟨_, _, rfl, rfl, alone 0 rfl, (each 2 _ rfl).mp rfl _ List.mem_cons_self⟩

end Clause

end Hazard

end WaveHazard
