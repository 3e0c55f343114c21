import WaveHazard.Proofs.Completion
import WaveHazard.Proofs.Stages
import WaveHazard.Proofs.Transit

/-! # Only synchronization changes

The pipeline adds, moves and removes waits and delays, and it removes barriers. Everything else
stays: the blocks and the graphs over them, and in every block the other instructions in their
order, up to the wait for exports that an interpolation carries in itself. Blocks that are left
alone by the placement of waits only have their delays coalesced.

Inserting waits is followed instruction by instruction along the transfer function, and coalescing
along the delay it holds back; the two meet in what is neither a wait nor a delay.
-/

namespace WaveHazard

open Machine Wait Hazard

namespace CoalesceDelays

/-- Whether an instruction is no delay. -/
def isOther (instr : Instr) : Bool := instr.opcode != .sDelayAlu

/-- Of what is released, all but the delay are the instructions behind it. -/
theorem filter_release {held : Held} (delays : held.delay.opcode = .sDelayAlu) :
    held.release.filter isOther = held.behind.reverse.filter isOther := by
  unfold Held.release
  rw [List.filter_cons_of_neg (by simp [isOther, delays])]

/-- A delay stays a delay when another one is merged into it. -/
theorem opcode_merge (held : Held) (imm : Nat) :
    (held.merge imm).delay.opcode = held.delay.opcode := by
  unfold Held.merge
  split <;> rfl

/-- Merging delays leaves the instructions between them. -/
theorem behind_merge (held : Held) (imm : Nat) : (held.merge imm).behind = held.behind := by
  unfold Held.merge
  split <;> rfl

/-- What is held back. -/
def heldBack (held? : Option Held) : List Instr := (held?.map Held.release).getD []

/-- A delay that starts a new search for others, or stays as it is, is no other instruction. -/
theorem filter_restart {maxSkip imm : Nat} {instr : Instr} {rest : List Instr}
    (delays : instr.opcode = .sDelayAlu)
    (holding : (coalesceFrom maxSkip (some { delay := instr }) rest).filter isOther =
      (heldBack (some { delay := instr }) ++ rest).filter isOther)
    (free : (coalesceFrom maxSkip none rest).filter isOther =
      (heldBack none ++ rest).filter isOther) :
    (if imm / 128 = 0 then coalesceFrom maxSkip (some { delay := instr }) rest
      else instr :: coalesceFrom maxSkip none rest).filter isOther = rest.filter isOther := by
  have dropped : isOther instr = false := by simp [isOther, delays]
  split
  · rw [holding]
    simp [heldBack, Held.release, dropped]
  · rw [List.filter_cons_of_neg (by simp [dropped]), free]
    rfl

/-- Folding delays keeps all other instructions in order. -/
theorem filter_coalesceFrom (maxSkip : Nat) (held? : Option Held) (instrs : List Instr)
    (delays : ∀ held ∈ held?, held.delay.opcode = .sDelayAlu) :
    (coalesceFrom maxSkip held? instrs).filter isOther =
      (heldBack held? ++ instrs).filter isOther := by
  -- The cases are those of the fold: the end of the block with and without a delay that is held
  -- back, a delay that starts a search, is merged or is too far away, and any other instruction.
  fun_induction coalesceFrom maxSkip held? instrs with
  | case1 => rfl
  | case2 held => simp [heldBack]
  | case3 instr rest delay imm restart holding free =>
      have dropped : isOther instr = false := by simp [isOther, delay]
      rw [filter_restart delay (holding (by simp [delay])) (free (by simp))]
      simp [heldBack, dropped]
  | case4 instr rest delay imm held merges holding free =>
      have dropped : isOther instr = false := by simp [isOther, delay]
      have first := delays held rfl
      rw [List.filter_append, free (by simp), filter_release (by rw [opcode_merge, first]),
        behind_merge, ← filter_release first]
      simp [heldBack, dropped]
  | case5 instr rest delay imm restart held apart holding free =>
      have dropped : isOther instr = false := by simp [isOther, delay]
      rw [List.filter_append, filter_restart delay (holding (by simp [delay])) (free (by simp))]
      simp [heldBack, dropped]
  | case6 instr rest other ih =>
      have kept : isOther instr = true := by simp [isOther, other]
      rw [List.filter_cons_of_pos kept, ih (by simp)]
      simp [heldBack, kept]
  | case7 instr rest other held ih =>
      rw [ih (by simpa using delays)]
      simp [heldBack, Held.release]

/-- Coalescing delays neither adds, drops nor reorders other instructions. -/
theorem filter_coalesce (maxSkip : Nat) (instrs : List Instr) :
    (coalesce maxSkip instrs).filter isOther = instrs.filter isOther :=
  filter_coalesceFrom maxSkip none instrs (by simp)

end CoalesceDelays

namespace Hazard

variable {setting : Setting} {generation : Generation}

/-- The instruction is the given one, up to a lower wait for exports that it carries in itself. -/
def LowersExports (source instr : Instr) : Prop :=
  instr = source ∨ ∃ waitExp lower, source.payload = .interp waitExp ∧ lower ≤ waitExp ∧
    instr = { source with payload := .interp lower }

/-- A wait for exports may move into the instruction it stands in front of, and nothing else
changes. -/
theorem lowersExports_absorbExports (queue : Queue) (instr : Instr) :
    LowersExports instr (absorbExports queue instr).instr := by
  unfold absorbExports
  split
  · rename_i waitExp bound payload _
    exact .inr ⟨waitExp, min waitExp bound, payload, Nat.min_le_left _ _, rfl⟩
  · exact .inl rfl

/-- An instruction that carries a wait stays where it is. -/
theorem isAbsorbed_absorbExports (queue : Queue) {instr : Instr}
    (kept : isAbsorbed generation instr = false) :
    isAbsorbed generation (absorbExports queue instr).instr = false := by
  have ordinary := isOrdinary_absorbExports queue (isOrdinary_of_not_isAbsorbed kept)
  unfold isOrdinary at ordinary
  unfold isAbsorbed Instr.isBarrier Instr.encoding at kept ⊢
  simp only [Bool.and_eq_true, Option.isNone_iff_eq_none, bne_iff_ne, ne_eq] at ordinary
  simp only [Bool.or_eq_false_iff] at kept
  rw [ordinary.1, opcode_absorbExports, kept.1.2, kept.2]
  rfl

/-- The instructions that are not absorbed are placed in order. -/
theorem placed_of_transferFrom {covered : Nat} {state final : State} {queue trailing : Queue}
    {instrs : List Instr} {placed : List Placement}
    (ran : transferFrom setting covered state queue instrs = .ok (final, trailing, placed)) :
    List.Forall₂ (fun source placement => ∃ ready, placement = absorbExports ready source)
      (instrs.filter fun instr => !isAbsorbed setting.generation instr) placed := by
  induction instrs generalizing covered state queue placed with
  | nil =>
      cases ran
      exact .nil
  | cons instr rest ih =>
      obtain ⟨issued, queued, _, proceeds⟩ := crosses_of_transferFrom ran
      cases proceeds with
      | absorb absorbed next =>
          rw [List.filter_cons_of_neg (by simp [absorbed])]
          exact ih next
      | place kept next =>
          rw [List.filter_cons_of_pos (by simp [kept])]
          exact .cons ⟨queued, rfl⟩ (ih next)

/-- A queue is lowered to waits and delays only. -/
theorem filter_of_queue_lower {queue : Queue} {code : List Instr}
    (lowered : (queue.lower generation).result = .ok code) :
    code.filter (fun instr => !isAbsorbed generation instr) = [] := by
  rw [List.filter_eq_nil_iff]
  intro instr member
  have idle := ((waitsFor_of_queue_lower lowered).1 instr member).2
  simp [isAbsorbed_of_not_isOrdinary idle]

/-- Lowering a schedule adds waits and delays, and nothing else. -/
theorem filter_lower {sources : List Instr} {placed : List Placement} {trailing : Queue}
    {code : List Instr} (kept : ∀ source ∈ sources, isAbsorbed generation source = false)
    (places : List.Forall₂ (fun source placement => ∃ ready, placement = absorbExports ready source)
      sources placed)
    (lowered : (Schedule.lower generation { placed, trailing }).result = .ok code) :
    List.Forall₂ LowersExports sources
        (code.filter fun instr => !isAbsorbed generation instr) ∧
      ∀ instr ∈ code, isAbsorbed generation instr = true →
        isOrdinary generation instr = false := by
  induction places generalizing code with
  | nil =>
      have trailing : (trailing.lower generation).result = .ok code := lowered
      rw [filter_of_queue_lower trailing]
      exact ⟨.nil, fun instr member _ => ((waitsFor_of_queue_lower trailing).1 instr member).2⟩
  | @cons source placement sources placed place _ ih =>
      obtain ⟨ready, rfl⟩ := place
      obtain ⟨waits, others, waiting, following, rfl⟩ := Schedule.lower_cons lowered
      obtain ⟨related, idle⟩ := ih (fun other member => kept other (List.mem_cons_of_mem _ member))
        following
      have stays := isAbsorbed_absorbExports ready (kept source List.mem_cons_self)
      constructor
      · rw [List.filter_append, filter_of_queue_lower waiting, List.nil_append,
          List.filter_cons_of_pos (by simp [stays])]
        exact .cons (lowersExports_absorbExports ready source) related
      · intro instr member absorbed
        rcases List.mem_append.mp member with wait | later
        · exact ((waitsFor_of_queue_lower waiting).1 instr wait).2
        · rcases List.mem_cons.mp later with rfl | other
          · rw [stays] at absorbed
            cases absorbed
          · exact idle instr other absorbed

end Hazard

/-- What the pipeline does to a block. -/
structure OnlySynchronization (generation : Generation) (block other : Block) : Prop where
  /-- Nothing but the instructions changes. -/
  same : other = { block with instrs := other.instrs }
  /-- The instructions that are not absorbed stay in order, up to the waits for exports that
  interpolations carry. -/
  kept : block.isExempt = false → List.Forall₂ LowersExports
    (block.instrs.filter fun instr => !isAbsorbed generation instr)
    (other.instrs.filter fun instr => !isAbsorbed generation instr)
  /-- All others are counter waits or delays. -/
  added : block.isExempt = false → ∀ instr ∈ other.instrs, isAbsorbed generation instr = true →
    (instr.wait? generation).isSome = true ∨ instr.opcode = .sDelayAlu
  /-- Where no waits are placed, only delays change. -/
  exempt : block.isExempt = true →
    other.instrs.filter (fun instr => instr.opcode != .sDelayAlu) =
      block.instrs.filter fun instr => instr.opcode != .sDelayAlu

/-- Nothing but the delays of a block changes. -/
structure OnlyDelays (block other : Block) : Prop where
  same : other = { block with instrs := other.instrs }
  others : other.instrs.filter CoalesceDelays.isOther = block.instrs.filter CoalesceDelays.isOther

namespace OnlyDelays

theorem refl (block : Block) : OnlyDelays block block := ⟨rfl, rfl⟩

theorem trans (first second third : Block) (left : OnlyDelays first second)
    (right : OnlyDelays second third) : OnlyDelays first third where
  same := by rw [right.same, left.same]
  others := right.others.trans left.others

/-- Coalescing the delays of a block changes nothing but delays. -/
theorem coalesce (maxSkip : Nat) (block : Block) :
    OnlyDelays block { block with instrs := CoalesceDelays.coalesce maxSkip block.instrs } :=
  ⟨rfl, CoalesceDelays.filter_coalesce maxSkip block.instrs⟩

variable {generation : Generation} {block other : Block}

/-- Delays are absorbed, so what is not absorbed stays. -/
theorem filter_absorbed (delays : OnlyDelays block other) :
    other.instrs.filter (fun instr => !isAbsorbed generation instr) =
      block.instrs.filter fun instr => !isAbsorbed generation instr := by
  have through (instrs : List Instr) :
      instrs.filter (fun instr => !isAbsorbed generation instr) =
        (instrs.filter CoalesceDelays.isOther).filter fun instr =>
          !isAbsorbed generation instr := by
    rw [List.filter_filter]
    apply List.filter_congr
    intro instr _
    unfold isAbsorbed CoalesceDelays.isOther
    by_cases delay : instr.opcode = .sDelayAlu <;> simp [delay]
  rw [through, delays.others, ← through]

/-- What is no delay was there before. -/
theorem mem (delays : OnlyDelays block other) {instr : Instr} (member : instr ∈ other.instrs)
    (different : instr.opcode ≠ .sDelayAlu) : instr ∈ block.instrs := by
  have listed : instr ∈ other.instrs.filter CoalesceDelays.isOther :=
    List.mem_filter.mpr ⟨member, by simpa [CoalesceDelays.isOther] using different⟩
  rw [delays.others] at listed
  exact (List.mem_filter.mp listed).1

end OnlyDelays

/-- A schedule changes only synchronization. -/
theorem onlySynchronization_of_schedules {setting : Setting} {block other : Block} {state : State}
    (schedules : InsertWaits.Schedules setting (block, state) other) :
    OnlySynchronization setting.generation block other := by
  obtain ⟨instrs, scheduled, rfl⟩ := schedules
  unfold InsertWaits.scheduleBlock at scheduled
  dsimp only at scheduled ⊢
  cases visible : block.isExempt with
  | true =>
      rw [visible, if_pos rfl] at scheduled
      cases scheduled
      exact ⟨rfl, by simp [visible], by simp [visible], fun _ => rfl⟩
  | false =>
      rw [visible, if_neg Bool.false_ne_true] at scheduled
      split at scheduled
      · rename_i left schedule transfer
        obtain ⟨⟨final, trailing, placed⟩, ran, done⟩ := Outcome.bind_eq_ok.mp transfer
        cases done
        obtain ⟨related, idle⟩ := filter_lower (by simp) (placed_of_transferFrom ran) scheduled
        refine ⟨rfl, fun _ => related, ?_, by simp [visible]⟩
        intro _ instr member absorbed
        have plain := idle instr member absorbed
        unfold isOrdinary at plain
        rw [Bool.and_eq_false_iff] at plain
        rcases plain with waits | delays
        · exact .inl (by simpa using waits)
        · exact .inr (by simpa using delays)
      · cases scheduled

/-- Coalescing afterwards changes only synchronization as well. -/
theorem OnlySynchronization.delays {generation : Generation} (block between other : Block)
    (first : OnlySynchronization generation block between) (second : OnlyDelays between other) :
    OnlySynchronization generation block other where
  same := by rw [second.same, first.same]
  kept := by
    intro visible
    rw [second.filter_absorbed]
    exact first.kept visible
  added := by
    intro visible instr member absorbed
    by_cases delays : instr.opcode = .sDelayAlu
    · exact .inr delays
    · exact first.added visible instr (second.mem member delays) absorbed
  exempt := fun left => second.others.trans (first.exempt left)

/-- The blocks of a rewritten program differ from those of the program in their synchronization
only. -/
theorem InsertWaits.Rewrites.relates {config : Config} {target : Target}
    {program rewritten : Program} (rewrites : Rewrites config target program rewritten) :
    program.Relates (OnlySynchronization target.generation) rewritten := by
  obtain ⟨_, scheduled⟩ := rewrites.blocks
  obtain ⟨entry, blocks, _, schedules, rfl⟩ := rewrites.schedules
  have length : blocks.length = program.size := by
    rw [← schedules.length_eq, List.length_zip, Array.length_toList, Vector.length_toList]
    exact Nat.min_self _
  refine ⟨rfl, length, ?_⟩
  intro position block other found also
  obtain ⟨inside, rfl⟩ := Array.getElem?_eq_some_iff.mp found
  obtain ⟨instrs, placed, there⟩ := scheduled.2 position inside
  cases there.symm.trans also
  exact onlySynchronization_of_schedules ⟨instrs, placed, rfl⟩

/-- A run of the pipeline that succeeds changes nothing but synchronization: the program has the
same blocks with the same graphs, its instructions stay in order, and what is added are counter
waits and delays. -/
theorem insertWaitStates_changes_only_synchronization {target : Target} {options : List String}
    {before after : Session Unit}
    (ran : (insertWaitStates target options).run before = (.ok (), after)) :
    before.program.Relates (OnlySynchronization target.generation) after.program := by
  obtain ⟨checked, rewritten, validated, inserted, coalesced⟩ := turns_of_insertWaitStates ran
  -- Validation changes nothing, so the waits are inserted into the program as it was.
  cases WellFormed.eq_of_turns validated
  obtain ⟨config, rewrites⟩ := InsertWaits.rewrites_of_turns inserted
  exact rewrites.relates.trans
    (CoalesceDelays.relates_of_turns coalesced OnlyDelays.refl OnlyDelays.trans
      OnlyDelays.coalesce)
    OnlySynchronization.delays

namespace BarrierThenJump

/-- A barrier, a message and a jump to another shader part. -/
def block : Block where
  kind := .flag 0
  instrs := [{ opcode := .pBarrier }, .immediate .sSendmsg 0, { opcode := .sSetpcB64 }]

/-- The block with the wait for the message and without the barrier. -/
def rewritten : Block :=
  { block with
    instrs := [.immediate .sSendmsg 0, .immediate .sWaitcnt 64519, { opcode := .sSetpcB64 }] }

/-- Validation leaves the block as it is. -/
theorem validated : WellFormed.pass.Completes (.ofGeneration .gfx11) [] { blocks := #[block] }
    { blocks := #[block] } := fun _ => ⟨_, rfl, rfl⟩

/-- Inserting waits puts one behind the message, and drops the barrier. -/
theorem inserted : InsertWaits.pass.Completes (.ofGeneration .gfx11) [] { blocks := #[block] }
    { blocks := #[rewritten] } :=
  @InsertWaits.completes_single { forceWaits := false, maxVisits := 256 } (.ofGeneration .gfx11) _
    block rewritten.instrs (fun _ => rfl) (by decide) (by decide) (by decide)
    (Outcome.eq_ok_of_toOption (by decide +kernel))

/-- There are no delays to coalesce. -/
theorem coalesced : CoalesceDelays.pass.Completes (.ofGeneration .gfx11) []
    { blocks := #[rewritten] } { blocks := #[rewritten] } := fun _ => ⟨_, rfl, rfl⟩

end BarrierThenJump

open BarrierThenJump in
/-- The barrier goes, a wait comes, and the message and the jump stay. -/
theorem barrier_replaced_by_wait : ∃ after : Session Unit,
    (insertWaitStates (.ofGeneration .gfx11) []).run
        { program := { blocks := #[block] }, journal := {}, data := () } = (.ok (), after) ∧
      OnlySynchronization .gfx11 block rewritten := by
  obtain ⟨after, ran, same⟩ := completes_insertWaitStates validated inserted coalesced {}
  have relates := insertWaitStates_changes_only_synchronization ran
  rw [same] at relates
  exact ⟨after, ran, @Program.Relates.block _ _ _ relates 0 _ _ rfl rfl⟩

end WaveHazard
