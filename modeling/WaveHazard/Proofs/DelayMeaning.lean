import Mathlib.Algebra.Group.Nat.Defs
import Mathlib.Data.Multiset.Filter
import WaveHazard.Proofs.OnlyWaits

/-! # Folding delays keeps what they say

A delay has two fields for conditions, and says by how many instructions the second one is meant
for a later instruction. What the delays of a block say is a set of conditions with the instructions
they are for, where instructions are numbered without the delays. Folding a delay into an earlier
one moves a condition to another instruction word, and the skip counts how far.
-/

namespace WaveHazard.CoalesceDelays

open Machine

/-- The condition with a code at an instruction; the code 0 is none. -/
def condition (position code : Nat) : Multiset (Nat × Nat) :=
  if code = 0 then 0 else {(position, code)}

/-- What a delay in front of an instruction asks for: one condition for that instruction, and one
behind as many others as are skipped. -/
def conditions (position imm : Nat) : Multiset (Nat × Nat) :=
  condition position (imm % 16) + condition (position + imm / 16 % 8) (imm / 128 % 16)

/-- The conditions that the delays of some code ask for. The first instruction that is no delay has
the given position. -/
def conditionsFrom : Nat → List Instr → Multiset (Nat × Nat)
  | _, [] => 0
  | position, instr :: rest =>
      if instr.opcode = .sDelayAlu then
        conditions position (instr.imm?.getD 0) + conditionsFrom position rest
      else conditionsFrom (position + 1) rest

/-- The codes of the conditions that the delays of a block ask for at an instruction. -/
def codesAt (instrs : List Instr) (position : Nat) : Multiset Nat :=
  ((conditionsFrom 0 instrs).filter fun condition => condition.1 = position).map Prod.snd

/-- A delay has an immediate, and one with nothing in its second field skips nothing. -/
def IsPlain (instr : Instr) : Prop :=
  ∃ imm, instr.payload = .scalar imm ∧ (imm / 128 = 0 → imm ≤ 15)

/-- A delay adds its conditions at its own position. -/
theorem conditionsFrom_of_delay {instr : Instr} (delays : instr.opcode = .sDelayAlu)
    (position : Nat) (rest : List Instr) :
    conditionsFrom position (instr :: rest) =
      conditions position (instr.imm?.getD 0) + conditionsFrom position rest :=
  if_pos delays

/-- Any other instruction takes up a position. -/
theorem conditionsFrom_of_other {instr : Instr} (other : instr.opcode ≠ .sDelayAlu)
    (position : Nat) (rest : List Instr) :
    conditionsFrom position (instr :: rest) = conditionsFrom (position + 1) rest :=
  if_neg other

/-- The conditions of the second part are counted from behind the first. -/
theorem conditionsFrom_append (position : Nat) (first second : List Instr) :
    conditionsFrom position (first ++ second) =
      conditionsFrom position first +
        conditionsFrom (position + (first.filter isOther).length) second := by
  induction first generalizing position with
  | nil => exact (Multiset.zero_add _).symm
  | cons instr rest ih =>
      rw [List.cons_append]
      by_cases delays : instr.opcode = .sDelayAlu
      · rw [conditionsFrom_of_delay delays, conditionsFrom_of_delay delays, ih,
          List.filter_cons_of_neg (by simp [isOther, delays]), Multiset.add_assoc]
      · rw [conditionsFrom_of_other delays, conditionsFrom_of_other delays, ih,
          List.filter_cons_of_pos (by simp [isOther, delays]), List.length_cons, Nat.add_assoc,
          Nat.add_comm 1]

/-- Code without delays has no conditions. -/
theorem conditionsFrom_others {instrs : List Instr}
    (others : ∀ instr ∈ instrs, isOther instr = true) (position : Nat) :
    conditionsFrom position instrs = 0 := by
  induction instrs generalizing position with
  | nil => rfl
  | cons instr rest ih =>
      obtain ⟨other, rest⟩ := List.forall_mem_cons.mp others
      rw [conditionsFrom_of_other (by simpa [isOther] using other), ih rest]

/-- The immediate of one field says what that field says. -/
theorem conditions_of_le {imm : Nat} (small : imm ≤ 15) (position : Nat) :
    conditions position imm = condition position imm := by
  have first : imm % 16 = imm := by omega
  have skip : imm / 16 % 8 = 0 := by omega
  have second : imm / 128 % 16 = 0 := by omega
  unfold conditions
  rw [first, skip, second]
  exact Multiset.add_zero _

/-- Fields that do not overlap are added. -/
theorem or_eq_add_of_lt {low bits : Nat} (inside : low < 2 ^ bits) (high : Nat) :
    low ||| high * 2 ^ bits = low + high * 2 ^ bits := by
  calc
    low ||| high * 2 ^ bits = 2 ^ bits * high ||| low := by rw [Nat.or_comm, Nat.mul_comm]
    _ = 2 ^ bits * high + low := (Nat.two_pow_add_eq_or_of_lt inside high).symm
    _ = low + high * 2 ^ bits := by rw [Nat.add_comm, Nat.mul_comm]

/-- The immediate of two fields says what both say. -/
theorem conditions_of_fields {own skip imm : Nat} (first : own ≤ 15) (near : skip < 8)
    (second : imm ≤ 15) (position : Nat) :
    conditions position (own ||| skip * 16 ||| imm * 128) =
      condition position own + condition (position + skip) imm := by
  have low : own ||| skip * 16 = own + skip * 16 :=
    or_eq_add_of_lt (by omega : own < 2 ^ 4) skip
  have high : own ||| skip * 16 ||| imm * 128 = own + skip * 16 + imm * 128 := by
    rw [low]
    exact or_eq_add_of_lt (by omega : own + skip * 16 < 2 ^ 7) imm
  have ownField : (own + skip * 16 + imm * 128) % 16 = own := by omega
  have skipField : (own + skip * 16 + imm * 128) / 16 % 8 = skip := by omega
  have immField : (own + skip * 16 + imm * 128) / 128 % 16 = imm := by omega
  unfold conditions
  rw [high, ownField, skipField, immField]

namespace Held

variable {held : Held}

/-- What is held back are a delay and the instructions behind it. -/
theorem conditionsFrom_release (delays : held.delay.opcode = .sDelayAlu)
    (others : ∀ instr ∈ held.behind, isOther instr = true) (position : Nat) :
    conditionsFrom position held.release = conditions position (held.delay.imm?.getD 0) := by
  unfold release
  rw [conditionsFrom_of_delay delays, conditionsFrom_others (by simpa using others)]
  exact Multiset.add_zero _

/-- Of what is held back only the delay takes up no position. -/
theorem length_filter_release (delays : held.delay.opcode = .sDelayAlu)
    (others : ∀ instr ∈ held.behind, isOther instr = true) :
    (held.release.filter isOther).length = held.behind.length := by
  rw [filter_release delays, List.filter_eq_self.mpr (by simpa using others), List.length_reverse]

end Held

/-- What is held back is a delay with one field, and no other delay behind it. -/
structure Held.IsOpen (held : Held) (own : Nat) : Prop where
  delays : held.delay.opcode = .sDelayAlu
  payload : held.delay.payload = .scalar own
  small : own ≤ 15
  others : ∀ instr ∈ held.behind, isOther instr = true

namespace Held.IsOpen

variable {held : Held} {own : Nat}

/-- A delay that starts a search. -/
theorem start {instr : Instr} (delays : instr.opcode = .sDelayAlu)
    (payload : instr.payload = .scalar own) (small : own ≤ 15) :
    IsOpen { delay := instr } own where
  delays := delays
  payload := payload
  small := small
  others := fun _ member => nomatch member

/-- An instruction may be held back behind the delay. -/
theorem push (isOpen : held.IsOpen own) {instr : Instr} (other : instr.opcode ≠ .sDelayAlu) :
    IsOpen { held with behind := instr :: held.behind } own where
  delays := isOpen.delays
  payload := isOpen.payload
  small := isOpen.small
  others := List.forall_mem_cons.mpr ⟨by simpa [isOther] using other, isOpen.others⟩

/-- Folding a delay of one field into the one that is held back adds its condition, at the
instruction that it stood in front of. -/
theorem conditionsFrom_merge (isOpen : held.IsOpen own) {imm : Nat} (small : imm ≤ 15)
    (near : held.behind.length < 8) (position : Nat) :
    conditionsFrom position (held.merge imm).release =
      conditionsFrom position held.release +
        conditions (position + held.behind.length) imm := by
  have merged : (held.merge imm).delay.imm? =
      some (own ||| held.behind.length * 16 ||| imm * 128) := by
    unfold merge
    rw [isOpen.payload]
    rfl
  have before : held.delay.imm? = some own := by
    unfold Instr.imm?
    rw [isOpen.payload]
  rw [conditionsFrom_release (by rw [opcode_merge, isOpen.delays])
      (by rw [behind_merge]; exact isOpen.others),
    conditionsFrom_release isOpen.delays isOpen.others, merged, before]
  exact (conditions_of_fields isOpen.small near small position).trans (by
    rw [Option.getD_some, conditions_of_le isOpen.small, conditions_of_le small])

end Held.IsOpen

/-- A delay that starts a new search for others, or stays as it is, keeps its conditions. -/
theorem conditionsFrom_restart {maxSkip position : Nat} {instr : Instr} {rest : List Instr}
    (delays : instr.opcode = .sDelayAlu)
    (holding : instr.imm?.getD 0 / 128 = 0 →
      conditionsFrom position (coalesceFrom maxSkip (some { delay := instr }) rest) =
        conditionsFrom position (instr :: rest))
    (free : conditionsFrom position (coalesceFrom maxSkip none rest) =
      conditionsFrom position rest) :
    conditionsFrom position
        (if instr.imm?.getD 0 / 128 = 0 then coalesceFrom maxSkip (some { delay := instr }) rest
          else instr :: coalesceFrom maxSkip none rest) =
      conditionsFrom position (instr :: rest) := by
  split
  · exact holding ‹_›
  · rw [conditionsFrom_of_delay delays, free, ← conditionsFrom_of_delay delays]

/-- Folding delays keeps all conditions and the instructions they are for. -/
theorem conditionsFrom_coalesceFrom {maxSkip : Nat} (near : maxSkip ≤ largestSkip)
    (held? : Option Held) (instrs : List Instr)
    (isOpen : ∀ held ∈ held?, ∃ own, held.IsOpen own)
    (plain : ∀ instr ∈ instrs, instr.opcode = .sDelayAlu → IsPlain instr) (position : Nat) :
    conditionsFrom position (coalesceFrom maxSkip held? instrs) =
      conditionsFrom position (heldBack held? ++ instrs) := by
  have started {instr : Instr} (delays : instr.opcode = .sDelayAlu) (plain : IsPlain instr)
      (single : instr.imm?.getD 0 / 128 = 0) :
      ∀ held ∈ some ({ delay := instr } : Held), ∃ own, held.IsOpen own := by
    obtain ⟨own, payload, small⟩ := plain
    rw [Instr.imm?, payload] at single
    rintro _ ⟨⟩
    exact ⟨own, .start delays payload (small single)⟩
  -- Only the fourth case of the fold moves a condition: there a delay is merged into the one that
  -- is held back, and the skip is the number of instructions held back with it.
  fun_induction coalesceFrom maxSkip held? instrs generalizing position with
  | case1 => rfl
  | case2 held => simp [heldBack]
  | case3 instr rest delays imm restart holding free =>
      obtain ⟨here, plain⟩ := List.forall_mem_cons.mp plain
      exact conditionsFrom_restart delays
        (fun single => holding (started delays (here delays) single) plain position)
        (free (by simp) plain position)
  | case4 instr rest delays imm held merges holding free =>
      obtain ⟨here, plain⟩ := List.forall_mem_cons.mp plain
      obtain ⟨own, isOpen⟩ := isOpen held rfl
      have single : imm ≤ 15 := by
        obtain ⟨given, payload, small⟩ := here delays
        have same : imm = given := by
          change instr.imm?.getD 0 = given
          rw [Instr.imm?, payload]
          rfl
        exact same ▸ small (same ▸ merges.2.1)
      have close : held.behind.length < 8 :=
        Nat.lt_of_le_of_lt (merges.2.2.trans near) (by decide)
      have passed := Held.length_filter_release isOpen.delays isOpen.others
      have merged : ((held.merge imm).release.filter isOther).length = held.behind.length := by
        rw [Held.length_filter_release (by rw [opcode_merge, isOpen.delays])
          (by rw [behind_merge]; exact isOpen.others), behind_merge]
      change _ = conditionsFrom position (held.release ++ instr :: rest)
      rw [conditionsFrom_append, conditionsFrom_append, merged, passed,
        conditionsFrom_of_delay delays, free (by simp) plain,
        isOpen.conditionsFrom_merge single close, Multiset.add_assoc]
      rfl
  | case5 instr rest delays imm restart held apart holding free =>
      obtain ⟨here, plain⟩ := List.forall_mem_cons.mp plain
      have restarts (position : Nat) := @conditionsFrom_restart maxSkip position instr rest delays
        (fun single => holding (started delays (here delays) single) plain position)
        (free (by simp) plain position)
      exact (conditionsFrom_append _ _ _).trans ((congrArg _ (restarts _)).trans
        (conditionsFrom_append _ _ _).symm)
  | case6 instr rest other ih =>
      obtain ⟨_, plain⟩ := List.forall_mem_cons.mp plain
      rw [conditionsFrom_of_other other, ih (by simp) plain]
      exact (conditionsFrom_of_other other _ _).symm
  | case7 instr rest other held ih =>
      obtain ⟨_, plain⟩ := List.forall_mem_cons.mp plain
      obtain ⟨own, isOpen⟩ := isOpen held rfl
      rw [ih (by rintro _ ⟨⟩; exact ⟨own, isOpen.push other⟩) plain]
      simp [heldBack, Held.release]

/-- Folding delays leaves all other instructions in order, and asks for the same conditions at each
of them. -/
theorem coalesce_preserves_meaning {maxSkip : Nat} {instrs : List Instr}
    (near : maxSkip ≤ largestSkip)
    (plain : ∀ instr ∈ instrs, instr.opcode = .sDelayAlu → IsPlain instr) :
    (coalesce maxSkip instrs).filter isOther = instrs.filter isOther ∧
      ∀ position, codesAt (coalesce maxSkip instrs) position = codesAt instrs position := by
  have same := conditionsFrom_coalesceFrom near none instrs (fun _ member => nomatch member) plain 0
  refine ⟨filter_coalesce maxSkip instrs, fun position => ?_⟩
  unfold codesAt coalesce
  rw [same]
  rfl

namespace DelayAfterNext

/-- Two delays, two instructions apart. -/
def block : List Instr :=
  [.immediate .sDelayAlu 1, { opcode := .vAddF32 }, { opcode := .sNop }, .immediate .sDelayAlu 2,
    { opcode := .vMulF32 }]

/-- One delay that skips two instructions. -/
def folded : List Instr :=
  [.immediate .sDelayAlu 289, { opcode := .vAddF32 }, { opcode := .sNop }, { opcode := .vMulF32 }]

end DelayAfterNext

open DelayAfterNext in
/-- The second delay is folded into the first one, and its condition stays where it was. -/
theorem condition_stays_behind_skip :
    coalesce largestSkip block = folded ∧ folded.filter isOther = block.filter isOther ∧
      codesAt folded 0 = {1} ∧ codesAt folded 1 = 0 ∧ codesAt folded 2 = {2} := by
  have folds : coalesce largestSkip block = folded := by decide
  have plain : ∀ instr ∈ block, instr.opcode = .sDelayAlu → IsPlain instr := by
    intro instr member delays
    simp only [block, List.mem_cons, List.not_mem_nil, or_false] at member
    rcases member with rfl | rfl | rfl | rfl | rfl
    · exact ⟨1, rfl, by decide⟩
    · cases delays
    · cases delays
    · exact ⟨2, rfl, by decide⟩
    · cases delays
  obtain ⟨others, codes⟩ := coalesce_preserves_meaning (Nat.le_refl largestSkip) plain
  rw [folds] at others codes
  exact ⟨folds, others, codes 0, codes 1, codes 2⟩

end WaveHazard.CoalesceDelays
