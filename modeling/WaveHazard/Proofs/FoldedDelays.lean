import WaveHazard.Proofs.OnlyWaits

/-! # Folding delays once is enough

A block is folded when none of its delays can be moved into an earlier one. Folding leaves such a
block as it is, and what it makes of any block is folded: a delay that was kept had nowhere to go,
and a delay that took another one in has no free field left.
-/

namespace WaveHazard.CoalesceDelays

open Machine

/-- Whether a delay may be folded into an earlier one with a free field, given the number of
instructions between them. -/
def Joins (maxSkip imm : Nat) (open? : Option Nat) : Prop :=
  imm ≠ 0 ∧ imm / 128 = 0 ∧ ∃ distance ∈ open?, distance ≤ maxSkip

/-- No delay may be folded into an earlier one. The number is how many instructions stand behind the
last delay so far, if that one has a free field. -/
def IsFolded (maxSkip : Nat) : Option Nat → List Instr → Prop
  | _, [] => True
  | open?, instr :: rest =>
      if instr.opcode = .sDelayAlu then
        ¬ Joins maxSkip (instr.imm?.getD 0) open? ∧
          IsFolded maxSkip (if instr.imm?.getD 0 / 128 = 0 then some 0 else none) rest
      else IsFolded maxSkip (open?.map (· + 1)) rest

section

variable {maxSkip : Nat} {open? : Option Nat} {instr : Instr} {rest : List Instr}

/-- No delay is folded where no earlier one is open. -/
theorem not_joins_none (imm : Nat) : ¬ Joins maxSkip imm none := by
  rintro ⟨_, _, _, known, _⟩
  cases known

/-- A delay is folded into an open one within the largest distance. -/
theorem joins_some {imm distance : Nat} :
    Joins maxSkip imm (some distance) ↔ imm ≠ 0 ∧ imm / 128 = 0 ∧ distance ≤ maxSkip := by
  simp [Joins]

/-- A delay at the front is not folded itself, and it is open if it has a free field. -/
theorem isFolded_cons_of_delay (delays : instr.opcode = .sDelayAlu) :
    IsFolded maxSkip open? (instr :: rest) ↔
      ¬ Joins maxSkip (instr.imm?.getD 0) open? ∧
        IsFolded maxSkip (if instr.imm?.getD 0 / 128 = 0 then some 0 else none) rest := by
  rw [IsFolded, if_pos delays]

/-- Any other instruction at the front adds to the distance. -/
theorem isFolded_cons_of_other (other : instr.opcode ≠ .sDelayAlu) :
    IsFolded maxSkip open? (instr :: rest) ↔ IsFolded maxSkip (open?.map (· + 1)) rest := by
  rw [IsFolded, if_neg other]

/-- Code without delays at the front adds its length to the distance. -/
theorem isFolded_append_of_others {others : List Instr}
    (kept : ∀ instr ∈ others, isOther instr = true) :
    IsFolded maxSkip open? (others ++ rest) ↔
      IsFolded maxSkip (open?.map (· + others.length)) rest := by
  induction others generalizing open? with
  | nil => simp
  | cons instr others ih =>
      obtain ⟨other, kept⟩ := List.forall_mem_cons.mp kept
      rw [List.cons_append, isFolded_cons_of_other (by simpa [isOther] using other), ih kept,
        Option.map_map, List.length_cons]
      have shifted : (· + others.length) ∘ (· + 1) = (· + (others.length + 1)) := by
        funext distance
        change distance + 1 + others.length = distance + (others.length + 1)
        omega
      rw [shifted]

end

/-- Nothing changes in a block where no delay may be folded into an earlier one. -/
theorem coalesceFrom_of_isFolded {maxSkip : Nat} (held? : Option Held) (instrs : List Instr)
    (folded : IsFolded maxSkip (held?.map (·.behind.length)) instrs) :
    coalesceFrom maxSkip held? instrs = heldBack held? ++ instrs := by
  have restarts {instr : Instr} {rest : List Instr}
      (next : IsFolded maxSkip (if instr.imm?.getD 0 / 128 = 0 then some 0 else none) rest)
      (holding : IsFolded maxSkip (some 0) rest →
        coalesceFrom maxSkip (some { delay := instr }) rest = instr :: rest)
      (free : IsFolded maxSkip none rest → coalesceFrom maxSkip none rest = rest) :
      (if instr.imm?.getD 0 / 128 = 0 then coalesceFrom maxSkip (some { delay := instr }) rest
        else instr :: coalesceFrom maxSkip none rest) = instr :: rest := by
    split at next
    · rw [if_pos ‹_›, holding next]
    · rw [if_neg ‹_›, free next]
  fun_induction coalesceFrom maxSkip held? instrs with
  | case1 => rfl
  | case2 held => simp [heldBack]
  | case3 instr rest delays imm restart holding free =>
      obtain ⟨_, next⟩ := (isFolded_cons_of_delay delays).mp folded
      exact restarts next holding free
  | case4 instr rest delays imm held merges _ _ =>
      obtain ⟨apart, _⟩ := (isFolded_cons_of_delay delays).mp folded
      exact absurd (joins_some.mpr merges) apart
  | case5 instr rest delays imm restart held apart holding free =>
      obtain ⟨_, next⟩ := (isFolded_cons_of_delay delays).mp folded
      exact congrArg (held.release ++ ·) (restarts next holding free)
  | case6 instr rest other ih =>
      rw [ih ((isFolded_cons_of_other other).mp folded)]
      rfl
  | case7 instr rest other held ih =>
      rw [ih ((isFolded_cons_of_other other).mp folded)]
      simp [heldBack, Held.release]

/-- What is held back is a delay with a free field, and no other delay behind it. -/
structure Held.IsFree (held : Held) (own : Nat) : Prop where
  delays : held.delay.opcode = .sDelayAlu
  payload : held.delay.payload = .scalar own
  free : own / 128 = 0
  others : ∀ instr ∈ held.behind, isOther instr = true

namespace Held.IsFree

variable {maxSkip own : Nat} {open? : Option Nat} {held : Held}

/-- An instruction may be held back behind the delay. -/
theorem push (isFree : held.IsFree own) {instr : Instr} (other : instr.opcode ≠ .sDelayAlu) :
    IsFree { held with behind := instr :: held.behind } own where
  delays := isFree.delays
  payload := isFree.payload
  free := isFree.free
  others := List.forall_mem_cons.mpr ⟨by simpa [isOther] using other, isFree.others⟩

/-- Behind a delay that is released, the distance is the number of instructions held back. -/
theorem isFolded_release (isFree : held.IsFree own) (apart : ¬ Joins maxSkip own open?)
    {rest : List Instr} (next : IsFolded maxSkip (some held.behind.length) rest) :
    IsFolded maxSkip open? (held.release ++ rest) := by
  have imm : held.delay.imm?.getD 0 = own := by
    rw [Instr.imm?, isFree.payload]
    rfl
  rw [Held.release, List.cons_append, isFolded_cons_of_delay isFree.delays, imm,
    if_pos isFree.free, isFolded_append_of_others (by simpa using isFree.others)]
  exact ⟨apart, by simpa using next⟩

/-- A delay that took another one in has no free field and is not folded again. -/
theorem isFolded_merge (isFree : held.IsFree own) {imm : Nat} (used : imm ≠ 0)
    {rest : List Instr} (next : IsFolded maxSkip none rest) :
    IsFolded maxSkip open? ((held.merge imm).release ++ rest) := by
  have merged : (held.merge imm).delay.imm?.getD 0 =
      own ||| held.behind.length * 16 ||| imm * 128 := by
    unfold merge
    rw [isFree.payload]
    rfl
  have full : (own ||| held.behind.length * 16 ||| imm * 128) / 128 ≠ 0 := by
    have large : imm * 128 ≤ own ||| held.behind.length * 16 ||| imm * 128 := Nat.right_le_or
    omega
  have delays : (held.merge imm).delay.opcode = .sDelayAlu := by rw [opcode_merge, isFree.delays]
  rw [Held.release, List.cons_append, isFolded_cons_of_delay delays, merged, if_neg full,
    isFolded_append_of_others (by rw [behind_merge]; simpa using isFree.others)]
  exact ⟨fun joins => full joins.2.1, next⟩

end Held.IsFree

/-- The delay that is held back may not be folded into the last one in front of it. Where none is
held back, the last one in front has no free field. -/
def Blocked (maxSkip : Nat) (open? : Option Nat) : Option Held → Prop
  | none => open? = none
  | some held => ∃ own, held.IsFree own ∧ ¬ Joins maxSkip own open?

/-- What folding makes of a block is folded. -/
theorem isFolded_coalesceFrom {maxSkip : Nat} (open? : Option Nat) (held? : Option Held)
    (instrs : List Instr) (blocked : Blocked maxSkip open? held?)
    (scalar : ∀ instr ∈ instrs, instr.opcode = .sDelayAlu → ∃ imm, instr.payload = .scalar imm) :
    IsFolded maxSkip open? (coalesceFrom maxSkip held? instrs) := by
  -- A delay that is not folded starts a search of its own, or has no free field.
  have restarts {open? : Option Nat} {instr : Instr} {rest : List Instr}
      (delays : instr.opcode = .sDelayAlu) (payload : ∃ imm, instr.payload = .scalar imm)
      (apart : ¬ Joins maxSkip (instr.imm?.getD 0) open?)
      (holding : Blocked maxSkip open? (some { delay := instr }) →
        IsFolded maxSkip open? (coalesceFrom maxSkip (some { delay := instr }) rest))
      (free : IsFolded maxSkip none (coalesceFrom maxSkip none rest)) :
      IsFolded maxSkip open?
        (if instr.imm?.getD 0 / 128 = 0 then coalesceFrom maxSkip (some { delay := instr }) rest
          else instr :: coalesceFrom maxSkip none rest) := by
    split
    next single =>
      obtain ⟨own, payload⟩ := payload
      rw [Instr.imm?, payload] at single apart
      exact holding ⟨own, ⟨delays, payload, single, by simp⟩, apart⟩
    next paired =>
      rw [isFolded_cons_of_delay delays, if_neg paired]
      exact ⟨apart, free⟩
  fun_induction coalesceFrom maxSkip held? instrs generalizing open? with
  | case1 => trivial
  | case2 held =>
      obtain ⟨own, isFree, apart⟩ := blocked
      have released : IsFolded maxSkip open? (held.release ++ []) :=
        isFree.isFolded_release apart trivial
      rwa [List.append_nil] at released
  | case3 instr rest delays imm restart holding free =>
      obtain ⟨here, scalar⟩ := List.forall_mem_cons.mp scalar
      cases blocked
      exact restarts delays (here delays) (not_joins_none _)
        (fun started => holding none started scalar) (free none rfl scalar)
  | case4 instr rest delays imm held merges _ free =>
      obtain ⟨_, scalar⟩ := List.forall_mem_cons.mp scalar
      obtain ⟨own, isFree, _⟩ := blocked
      exact isFree.isFolded_merge merges.1 (free none rfl scalar)
  | case5 instr rest delays imm restart held apart holding free =>
      obtain ⟨here, scalar⟩ := List.forall_mem_cons.mp scalar
      obtain ⟨own, isFree, released⟩ := blocked
      have kept : ¬ Joins maxSkip imm (some held.behind.length) :=
        fun joins => apart (joins_some.mp joins)
      exact isFree.isFolded_release released (restarts delays (here delays) kept
        (fun started => holding _ started scalar) (free none rfl scalar))
  | case6 instr rest other ih =>
      obtain ⟨_, scalar⟩ := List.forall_mem_cons.mp scalar
      cases blocked
      exact (isFolded_cons_of_other other).mpr (ih none rfl scalar)
  | case7 instr rest other held ih =>
      obtain ⟨_, scalar⟩ := List.forall_mem_cons.mp scalar
      obtain ⟨own, isFree, apart⟩ := blocked
      exact ih open? ⟨own, isFree.push other, apart⟩ scalar

/-- Folding the delays of a block whose delays are folded changes nothing. -/
theorem coalesce_coalesce (maxSkip : Nat) (instrs : List Instr)
    (scalar : ∀ instr ∈ instrs, instr.opcode = .sDelayAlu → ∃ imm, instr.payload = .scalar imm) :
    coalesce maxSkip (coalesce maxSkip instrs) = coalesce maxSkip instrs :=
  coalesceFrom_of_isFolded none _ (isFolded_coalesceFrom none none instrs rfl scalar)

namespace MixedDelays

/-- Delays that say nothing, that are taken in, that are too far apart, and that have both fields in
use already. -/
def block : List Instr :=
  [.immediate .sDelayAlu 0, .immediate .sDelayAlu 2, .immediate .sDelayAlu 3,
    { opcode := .vAddF32 }, { opcode := .sNop }, .immediate .sDelayAlu 1,
    .immediate .sDelayAlu 65535, { opcode := .vMulF32 }, .immediate .sDelayAlu 127]

/-- The block once its delays are folded, with one instruction skipped at most. -/
def folded : List Instr :=
  [.immediate .sDelayAlu 256, .immediate .sDelayAlu 3,
    { opcode := .vAddF32 }, { opcode := .sNop }, .immediate .sDelayAlu 1,
    .immediate .sDelayAlu 65535, { opcode := .vMulF32 }, .immediate .sDelayAlu 127]

end MixedDelays

open MixedDelays in
/-- The delay behind two others stays where it is, although the second one is now part of the first,
and so does the one that two instructions separate from it. -/
theorem coalesce_mixed_delays_twice :
    coalesce 1 block = folded ∧ coalesce 1 folded = folded := by
  have folds : coalesce 1 block = folded := by decide
  have scalar : ∀ instr ∈ block, instr.opcode = .sDelayAlu →
      ∃ imm, instr.payload = .scalar imm := by
    intro instr member delays
    simp only [block, List.mem_cons, List.not_mem_nil, or_false] at member
    rcases member with rfl | rfl | rfl | rfl | rfl | rfl | rfl | rfl | rfl
    all_goals first | exact ⟨_, rfl⟩ | cases delays
  have twice := coalesce_coalesce 1 block scalar
  rw [folds] at twice
  exact ⟨folds, twice⟩

end WaveHazard.CoalesceDelays
