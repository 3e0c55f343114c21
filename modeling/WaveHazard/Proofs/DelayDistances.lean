import WaveHazard.Proofs.DelayEncoding
import WaveHazard.Proofs.Encodable
import WaveHazard.Proofs.OnlyWaits
import WaveHazard.Proofs.Passing
import WaveHazard.Proofs.RegisterView

/-! # How far back arithmetic producers are

A vector or a transcendental result is tracked at distance 0, and the same step moves it to distance
1: the instruction that writes it is the first one that was issued since. So between two
instructions all distances have a condition, joins and waits keep it that way, and what is queued
comes from the entries of registers.

Matrix instructions are where this fails. Their results are tracked like those of other vector
instructions, but they do not count as vector instructions when producers are moved back. So their
results stay at distance 0 until another vector instruction is issued, and a delay for one of them
right behind it says nothing.
-/

namespace WaveHazard

open Machine Wait

namespace Wait.Delay

variable {valu trans nextValu nextTrans : Int} {delay other : Delay}

theorem reaches_empty (valuInside : valu ≤ valuNone) (transInside : trans ≤ transNone) :
    Reaches valu trans ∅ :=
  ⟨near_empty, valuInside, transInside⟩

theorem Reaches.mono (reaches : delay.Reaches valu trans) (closerValu : nextValu ≤ valu)
    (closerTrans : nextTrans ≤ trans) : delay.Reaches nextValu nextTrans :=
  ⟨reaches.toNear, closerValu.trans reaches.farValu, closerTrans.trans reaches.farTrans⟩

/-- Two delays for distant producers are combined to one. -/
theorem Reaches.combine (first : delay.Reaches valu trans) (second : other.Reaches valu trans) :
    (delay.combine other).Reaches valu trans :=
  ⟨first.toNear.combine other, le_min first.farValu second.farValu,
    le_min first.farTrans second.farTrans⟩

/-- A dependency that is out of range counts as far away. -/
theorem reaches_settle (valuInside : valu ≤ valuNone) (transInside : trans ≤ transNone)
    (farValu : valu ≤ delay.valuInstrs) (farTrans : trans ≤ delay.transInstrs) :
    delay.settle.Reaches valu trans := by
  refine ⟨near_settle delay, ?_, ?_⟩
  · unfold settle
    dsimp only
    split
    · exact valuInside
    · exact farValu
  · unfold settle
    dsimp only
    split
    · exact transInside
    · exact farTrans

/-- A distance that is not at its limit grows by one without saturating. -/
theorem le_clampByte_succ {distance bound : Int} (near : distance ≤ bound) (small : bound ≤ 126) :
    distance + 1 ≤ clampByte (distance + 1) := by
  unfold clampByte
  omega

/-- An instruction moves the producers of its pipeline back by one. -/
theorem Reaches.age (reaches : delay.Reaches valu trans) {isValu isTrans : Bool}
    (valuInside : nextValu ≤ valuNone) (transInside : nextTrans ≤ transNone)
    (valuMoves : nextValu ≤ if isValu then valu + 1 else valu)
    (transMoves : nextTrans ≤ if isTrans then trans + 1 else trans) (cycles : Int) :
    (delay.age isValu isTrans cycles).Reaches nextValu nextTrans := by
  obtain ⟨⟨nearValu, nearTrans, _⟩, farValu, farTrans⟩ := reaches
  have valuNext := le_clampByte_succ nearValu (by decide)
  have transNext := le_clampByte_succ nearTrans (by decide)
  refine reaches_settle valuInside transInside (valuMoves.trans ?_) (transMoves.trans ?_)
  · cases isValu
    · exact farValu
    · exact (Int.add_le_add_right farValu 1).trans valuNext
  · cases isTrans
    · exact farTrans
    · exact (Int.add_le_add_right farTrans 1).trans transNext

/-- A condition of a delay instruction of the input has a condition. -/
theorem Reaches.attachCode (reaches : delay.Reaches 1 1) (code : Nat) :
    (delay.attachCode code).Reaches 1 1 := by
  have valu {distance : Int} (near : 1 ≤ distance) (encodable : distance ≤ valuNone) :
      Reaches 1 1 { delay with valuInstrs := distance } :=
    ⟨⟨encodable, reaches.trans, reaches.salu⟩, near, reaches.farTrans⟩
  have trans {distance : Int} (near : 1 ≤ distance) (encodable : distance ≤ transNone) :
      Reaches 1 1 { delay with transInstrs := distance } :=
    ⟨⟨reaches.valu, encodable, reaches.salu⟩, reaches.farValu, near⟩
  have salu {cycles : Int} (forward : 0 ≤ cycles) :
      Reaches 1 1 { delay with saluCycles := cycles } :=
    ⟨⟨reaches.valu, reaches.trans, forward⟩, reaches.farValu, reaches.farTrans⟩
  unfold Delay.attachCode
  split
  · rename_i condition _
    cases condition
    case noDep | fmaAccumCycle1 => exact reaches
    case valuDep1 | valuDep2 | valuDep3 | valuDep4 => exact valu (by decide) (by decide)
    case trans32Dep1 | trans32Dep2 | trans32Dep3 => exact trans (by decide) (by decide)
    case saluCycle1 | saluCycle2 | saluCycle3 => exact salu (by decide)
  · exact reaches

/-- A delay of the source is for producers at distance 1 at least. -/
theorem reaches_of_delay? {instr : Instr} (given : instr.delay? = some delay) :
    delay.Reaches 1 1 := by
  unfold Instr.delay? at given
  split at given
  · obtain ⟨imm, _, rfl⟩ := Option.map_eq_some_iff.mp given
    have start : Reaches 1 1 ∅ := reaches_empty (by decide) (by decide)
    have read := (start.attachCode (imm % 16)).attachCode (imm / 128 % 16)
    exact ⟨⟨read.valu, read.trans, read.salu⟩, read.farValu, read.farTrans⟩
  · cases given

end Wait.Delay

namespace Hazard

open Index

variable {generation : Generation} {setting : Setting} {valu trans least : Int}

namespace Entry

variable {event : Event} {logical onRead : Bool} {loads : LoadKind} {cycles : Int}

/-- Only arithmetic producers have a delay. -/
theorem delay_ofEvent_of_issues (issued : generation.issues event = true) :
    (ofEvent generation event logical onRead loads cycles).delay = ∅ := by
  cases event <;> first | rfl | cases issued

/-- A new producer is at distance 0 in its own pipeline and out of reach in the other one. -/
theorem reaches_ofEvent (forward : 0 ≤ cycles)
    (valuNew : valu ≤ if event = .valu then 0 else Delay.valuNone)
    (transNew : trans ≤ if event = .trans then 0 else Delay.transNone) :
    (ofEvent generation event logical onRead loads cycles).delay.Reaches valu trans := by
  have counted (counter : Counter) (counts : (generation.counted counter).holds event = true) :
      (generation.countersOf event).holds counter = true := by
    rw [Generation.holds_countersOf, counts]
  have near := (sound_ofEvent counted logical onRead loads forward).near
  refine ⟨near, ?_, ?_⟩
  · cases event <;> exact valuNew
  · cases event <;> exact transNew

end Entry

/-- Registers only wait for asynchronous operations without a delay. -/
theorem Effect.delay_of_follows {known : Counters} {effects : List Effect}
    (follows : Follows generation known effects) {slots : List Slot} {entry : Entry}
    (member : .track slots entry ∈ effects) : entry.delay = ∅ := by
  induction follows with
  | nil known => cases member
  | count sync _ _ ih | flatLoad sync _ ih | scalarStore _ ih =>
      rcases List.mem_cons.mp member with same | later
      · cases same
      · exact ih later
  | track slots logical onRead loads issued _ _ ih =>
      rcases List.mem_cons.mp member with same | later
      · cases same
        exact Entry.delay_ofEvent_of_issues issued
      · exact ih later

/-- Only vector instructions are issued to the vector pipeline. -/
theorem Effect.isVector_of_arithmeticEvent? {instr : Instr}
    (found : arithmeticEvent? instr = some .valu) : instr.isVector = true := by
  unfold arithmeticEvent? at found
  split at found
  · cases found
  · split at found
    · assumption
    · split at found <;> cases found

/-- Only transcendental instructions are issued to the transcendental pipeline. -/
theorem Effect.isTrans_of_arithmeticEvent? {instr : Instr}
    (found : arithmeticEvent? instr = some .trans) : instr.isTrans = true := by
  unfold arithmeticEvent? at found
  split at found
  · assumption
  · split at found
    · cases found
    · split at found <;> cases found

namespace State

/-- All arithmetic producers are at least as far back as given. -/
def IsSpaced (valu trans : Int) (state : State) : Prop :=
  state.Every fun entry => entry.delay.Reaches valu trans

variable {state other after : State} {instr : Instr} {queue passed : Queue}
  {footprint : Footprint} {sync : Sync}

theorem isSpaced_empty : IsSpaced valu trans ∅ := every_empty _

/-- Joining states brings no producer closer. -/
theorem IsSpaced.join (mine : state.IsSpaced valu trans) (theirs : other.IsSpaced valu trans)
    (logical : Bool) : (state.join other logical).IsSpaced valu trans :=
  Every.join mine theirs (fun _ _ => Delay.Reaches.combine) logical

/-- Effects only add the delays of the producers that they track. -/
theorem IsSpaced.applyAll (spaced : state.IsSpaced valu trans) {effects : List Effect}
    (new : ∀ slots entry, .track slots entry ∈ effects → entry.delay.Reaches valu trans) :
    (state.applyAll generation effects).IsSpaced valu trans := by
  refine Every.applyAll spaced ?_ ?_ ?_
  · intro event sync _ entry counters before
    unfold Entry.age
    split <;> exact before
  · exact fun entry before _ _ => before
  · intro slots entry tracked
    have fresh := new slots entry tracked
    exact ⟨fresh, fun held before => before.combine fresh⟩

/-- All producers move back while an instruction passes, and those that are forgotten are out of the
way. -/
theorem IsSpaced.ageArithmetic {nextValu nextTrans : Int} (spaced : state.IsSpaced valu trans)
    {isValu isTrans : Bool} (valuInside : nextValu ≤ Delay.valuNone)
    (transInside : nextTrans ≤ Delay.transNone)
    (valuMoves : nextValu ≤ if isValu then valu + 1 else valu)
    (transMoves : nextTrans ≤ if isTrans then trans + 1 else trans) (forget : Bool)
    (cycles : Int) :
    (state.ageArithmetic isValu isTrans forget cycles).IsSpaced nextValu nextTrans := by
  intro slot entry found
  rw [get?_ageArithmetic] at found
  obtain ⟨held, there, left⟩ := Option.bind_eq_some_iff.mp found
  have aged := (spaced slot held there).age valuInside transInside valuMoves transMoves cycles
  have empty : Delay.Reaches nextValu nextTrans ∅ := Delay.reaches_empty valuInside transInside
  obtain ⟨_, rfl⟩ := Entry.unlessDone_eq_some.mp left
  split
  · exact empty
  · split
    · exact empty
    · exact aged

/-- Looking at registers adds the delays of their producers to what is queued. -/
theorem IsSpaced.registerHazards (spaced : state.IsSpaced valu trans)
    (queued : queue.delay.Reaches valu trans) (instr : Instr) (footprint : Footprint) :
    (state.registerHazards setting instr footprint queue).delay.Reaches valu trans := by
  refine @registerHazards_keeps setting state (fun later => later.delay.Reaches valu trans) instr
    footprint queue queued (fun slot entry found later before => ?_) fun _ _ _ _ before => before
  unfold readHazard
  split
  · dsimp only
    split
    · exact before.combine (spaced slot entry found)
    · exact before
  · exact before

section Inside

variable (valuInside : valu ≤ Delay.valuNone) (transInside : trans ≤ Delay.transNone)

include valuInside transInside

/-- Behind a wait, what is left is as far back as before. -/
theorem IsSpaced.pass (spaced : state.IsSpaced valu trans) (queue : Queue) :
    (state.pass setting queue).IsSpaced valu trans := by
  intro slot entry found
  unfold State.pass at found
  extract_lets lowered aged at found
  rw [SlotMap.get?_retain] at found
  obtain ⟨middle, there, cleared⟩ := Option.bind_eq_some_iff.mp found
  have before : aged.IsSpaced valu trans := by
    change State.IsSpaced valu trans (if _ then _ else _)
    split
    · have start : lowered.IsSpaced valu trans := spaced
      exact start.ageArithmetic valuInside transInside le_rfl le_rfl false _
    · exact spaced
  rw [delay_eq_of_clearEntry cleared]
  split
  · exact Delay.reaches_empty valuInside transInside
  · have left := before slot middle there
    refine Delay.reaches_settle valuInside transInside ?_ ?_
    · dsimp only
      split
      · exact valuInside
      · exact left.farValu
    · dsimp only
      split
      · exact transInside
      · exact left.farTrans

/-- What an instruction requires is as far back as the producers of its registers and what is
queued. -/
theorem IsSpaced.require (spaced : state.IsSpaced valu trans)
    (queued : queue.delay.Reaches valu trans)
    (required : state.require setting queue instr footprint sync = (after, passed)) :
    after.IsSpaced valu trans ∧ passed.delay.Reaches valu trans := by
  constructor
  · obtain ⟨_, middle, moved, flatVm, flatLgkm, scalarStore, rfl⟩ := of_require required
    suffices kept : middle.IsSpaced valu trans from kept
    rcases moved with rfl | rfl
    · exact spaced
    · exact spaced.pass valuInside transInside passed
  · obtain ⟨wait, same⟩ := delay_of_require required
    rw [same]
    exact @IsSpaced.registerHazards setting _ _ state { wait, delay := queue.delay } spaced queued
      instr footprint

/-- What an instruction sets in motion has no delay. -/
theorem IsSpaced.issue (spaced : state.IsSpaced valu trans)
    (issued : state.issue generation instr = .ok after) : after.IsSpaced valu trans := by
  obtain ⟨effects, read, rfl⟩ := Outcome.map_eq_ok.mp issued
  refine spaced.applyAll fun slots entry member => ?_
  rw [Effect.delay_of_follows (@Effect.follows_of_ofInstr _ ∅ _ _ read) member]
  exact Delay.reaches_empty valuInside transInside

/-- At the entry of a program there are no arithmetic producers. -/
theorem isSpaced_atEntry {program : Program} {seeded : State}
    (atEntry : State.atEntry generation ∅ program = .ok seeded) : seeded.IsSpaced valu trans := by
  refine Outcome.foldlM_keeps (State.IsSpaced valu trans) atEntry ?_
    fun definition _ before next spaced stepped => ?_
  · split <;> exact isSpaced_empty
  · obtain ⟨effect, defined, done⟩ := Outcome.bind_eq_ok.mp stepped
    cases done
    have follows : Effect.Follows generation ∅ [.count .vmem {}, effect] :=
      Effect.follows_of_argument defined
    have applied : (before.applyAll generation [.count .vmem {}, effect]).IsSpaced valu trans := by
      refine spaced.applyAll fun slots entry member => ?_
      rw [Effect.delay_of_follows follows member]
      exact Delay.reaches_empty valuInside transInside
    exact applied

end Inside

section Issuing

variable (low : 0 ≤ least) (high : least ≤ 1) (matrix : instr.isMatrix = true → least = 0)

include low high matrix

/-- Results are tracked at distance 0 and moved back by the instruction that they are of, if it
counts for their pipeline. -/
theorem IsSpaced.issueArithmetic {target : Target} (spaced : state.IsSpaced least 1)
    (issued : state.issueArithmetic target instr = .ok after) : after.IsSpaced least 1 := by
  obtain ⟨effects, read, done⟩ := Outcome.bind_eq_ok.mp issued
  cases done
  have tracked : (state.applyAll target.generation effects).IsSpaced
      (if Effect.arithmeticEvent? instr = some .valu then 0 else least)
      (if Effect.arithmeticEvent? instr = some .trans then 0 else 1) := by
    refine IsSpaced.applyAll (fun slot entry found => (spaced slot entry found).mono ?_ ?_)
      fun slots entry member => ?_
    · split <;> omega
    · split <;> omega
    · obtain ⟨event, _, logical, onRead, loads, found, same⟩ :=
        Effect.eq_track_of_arithmetic read member
      cases same
      rw [found]
      refine Entry.reaches_ofEvent instr.latency_nonneg ?_ ?_
      · simp only [Option.some.injEq, Delay.valuNone]
        split <;> omega
      · simp only [Option.some.injEq, Delay.transNone]
        split <;> omega
  refine tracked.ageArithmetic (high.trans (by decide)) (by decide) ?_ ?_ _ _
  · by_cases isValu : Effect.arithmeticEvent? instr = some .valu
    · rw [if_pos isValu, Effect.isVector_of_arithmeticEvent? isValu, Bool.true_and]
      cases isMatrix : instr.isMatrix with
      | false => exact high
      | true => exact (matrix isMatrix).le
    · rw [if_neg isValu]
      split <;> omega
  · by_cases isTrans : Effect.arithmeticEvent? instr = some .trans
    · rw [if_pos isTrans, Effect.isTrans_of_arithmeticEvent? isTrans]
      exact le_rfl
    · rw [if_neg isTrans]
      split <;> omega

/-- Issuing an instruction leaves its own result at the least distance, and the others further back.
-/
theorem IsSpaced.issueAll (spaced : state.IsSpaced least 1)
    (issued : issueAll setting state instr = .ok after) : after.IsSpaced least 1 := by
  have valuInside : least ≤ Delay.valuNone := high.trans (by decide)
  unfold Hazard.issueAll at issued
  split at issued
  · obtain ⟨middle, arithmetic, issued⟩ := Outcome.bind_eq_ok.mp issued
    exact (spaced.issueArithmetic low high matrix arithmetic).issue valuInside (by decide) issued
  · exact spaced.issue valuInside (by decide) issued

end Issuing

/-- The conditions of a delay instruction of the input are at a distance of at least 1. -/
theorem reaches_absorb (high : least ≤ 1) (queued : queue.delay.Reaches least 1) (instr : Instr) :
    (absorb setting state queue instr).delay.Reaches least 1 := by
  unfold absorb
  dsimp only
  split
  · rename_i delay given
    exact queued.combine ((Delay.reaches_of_delay? given).mono high le_rfl)
  · exact queued

end State

/-- Waits for an export that an instruction takes over leave the delay queued. -/
theorem delay_absorbExports (queue : Queue) (instr : Instr) :
    (absorbExports queue instr).queue.delay = queue.delay := by
  unfold absorbExports
  split <;> rfl

/-- A chain of demands neither brings producers closer nor asks for close ones. -/
theorem Requires.isSpaced {state final : State} {queue last : Queue}
    (requires : Requires setting state queue final last) (valuInside : valu ≤ Delay.valuNone)
    (transInside : trans ≤ Delay.transNone) (spaced : state.IsSpaced valu trans)
    (queued : queue.delay.Reaches valu trans) :
    final.IsSpaced valu trans ∧ last.delay.Reaches valu trans := by
  induction requires with
  | done state queue => exact ⟨spaced, queued⟩
  | step _ required _ ih =>
      obtain ⟨passed, asked⟩ := spaced.require valuInside transInside queued required
      exact ih passed asked

section Running

variable (low : 0 ≤ least) (high : least ≤ 1)

include low high

/-- Between two instructions of a run the producers stay at their distances. -/
theorem Crosses.isSpaced {state issued : State} {queue queued : Queue} {instr : Instr}
    (crosses : Crosses setting state queue instr issued queued)
    (matrix : instr.isMatrix = true → least = 0) (spaced : state.IsSpaced least 1)
    (due : queue.delay.Reaches least 1) :
    issued.IsSpaced least 1 ∧ queued.delay.Reaches least 1 := by
  have valuInside : least ≤ Delay.valuNone := high.trans (by decide)
  have transInside : 1 ≤ Delay.transNone := by decide
  obtain ⟨footprint, _, required, clause, issue⟩ := crosses
  obtain ⟨passed, asked⟩ := spaced.require valuInside transInside
    (State.reaches_absorb high due instr) required
  obtain ⟨ready, last⟩ := clause.isSpaced valuInside transInside passed asked
  exact ⟨ready.issueAll low high matrix issue, last⟩

/-- Over a run all queued delays are as far back as the producers. -/
theorem isSpaced_of_transferFrom {instrs : List Instr} {covered : Nat} {state final : State}
    {queue trailing : Queue} {placed : List Placement}
    (ran : transferFrom setting covered state queue instrs = .ok (final, trailing, placed))
    (matrix : ∀ instr ∈ instrs, instr.isMatrix = true → least = 0)
    (spaced : state.IsSpaced least 1) (due : queue.delay.Reaches least 1) :
    final.IsSpaced least 1 ∧ trailing.delay.Reaches least 1 ∧
      ∀ placement ∈ placed, placement.queue.delay.Reaches least 1 := by
  induction instrs generalizing covered state queue placed with
  | nil =>
      cases ran
      exact ⟨spaced, due, fun _ member => nomatch member⟩
  | cons instr rest ih =>
      obtain ⟨here, others⟩ := List.forall_mem_cons.mp matrix
      obtain ⟨issued, queued, crosses, proceeds⟩ := crosses_of_transferFrom ran
      obtain ⟨behind, ahead⟩ := crosses.isSpaced low high here spaced due
      cases proceeds with
      | absorb _ next => exact ih next others behind ahead
      | place _ next =>
          have nothing : Delay.Reaches least 1 ∅ :=
            Delay.reaches_empty (high.trans (by decide)) (by decide)
          obtain ⟨last, closing, later⟩ := ih next others behind nothing
          refine ⟨last, closing, List.forall_mem_cons.mpr ⟨?_, later⟩⟩
          rw [delay_absorbExports]
          exact ahead

end Running

/-- What is queued in front of the instructions of a schedule and at its end. -/
def Schedule.queues (schedule : Schedule) : List Queue :=
  schedule.placed.map Placement.queue ++ [schedule.trailing]

section Lowering

variable {instr : Instr} {code : List Instr}

/-- A delay of the source does not stay where it is. -/
theorem isAbsorbed_of_delay (delays : instr.opcode = .sDelayAlu) :
    isAbsorbed generation instr = true := by
  unfold isAbsorbed
  rw [delays, beq_self_eq_true, Bool.or_true]

/-- A delay is no wait. -/
theorem wait?_of_delay (delays : instr.opcode = .sDelayAlu) : instr.wait? generation = none := by
  unfold Instr.wait?
  rw [delays]
  split
  · split <;> rfl
  · rfl

/-- The delay in the code of a queue is that of the queue. -/
theorem Queue.lower_of_delay {queue : Queue} (lowered : (queue.lower generation).result = .ok code)
    (member : instr ∈ code) (delays : instr.opcode = .sDelayAlu) :
    queue.delay.isEmpty = false ∧ queue.delay.lower = .ok instr := by
  unfold Queue.lower at lowered
  dsimp only at lowered
  obtain ⟨waits, others, waiting, delaying, rfl⟩ := Lowered.result_append_eq_ok lowered
  rcases List.mem_append.mp member with wait | delay
  · split at waiting
    · cases waiting
      cases wait
    · have found := (waitsFor_of_lower waiting).1 instr wait
      rw [wait?_of_delay delays] at found
      cases found
  · split at delaying
    · cases delaying
      cases delay
    · rename_i left
      obtain ⟨only, done, rfl⟩ := Outcome.map_eq_ok.mp delaying
      rw [List.mem_singleton.mp delay]
      exact ⟨eq_false_of_ne_true left, done⟩

/-- Every delay in the code of a schedule is that of one of its queues. -/
theorem Schedule.lower_of_delay {placed : List Placement} {trailing : Queue}
    (kept : ∀ placement ∈ placed, placement.instr.opcode ≠ .sDelayAlu)
    (lowered : (Schedule.lower generation { placed, trailing }).result = .ok code)
    (member : instr ∈ code) (delays : instr.opcode = .sDelayAlu) :
    ∃ queue ∈ Schedule.queues { placed, trailing },
      queue.delay.isEmpty = false ∧ queue.delay.lower = .ok instr := by
  induction placed generalizing code with
  | nil => exact ⟨trailing, List.mem_singleton_self _, Queue.lower_of_delay lowered member delays⟩
  | cons first rest ih =>
      obtain ⟨here, others⟩ := List.forall_mem_cons.mp kept
      obtain ⟨waits, later, waiting, following, rfl⟩ := Schedule.lower_cons lowered
      rcases List.mem_append.mp member with wait | behind
      · exact ⟨first.queue, List.mem_cons_self, Queue.lower_of_delay waiting wait delays⟩
      · rcases List.mem_cons.mp behind with rfl | other
        · exact absurd delays here
        · obtain ⟨queue, queued, emits⟩ := ih others following other
          exact ⟨queue, List.mem_cons_of_mem _ queued, emits⟩

end Lowering

end Hazard

open Hazard

/-- Over a block all queued delays are as far back as the producers, and a delay in the code of the
block is that of one of its queues. -/
theorem Block.isSpaced_of_transfer {setting : Setting} {least : Int} (low : 0 ≤ least)
    (high : least ≤ 1) {block : Block} {state left : State} {schedule : Schedule}
    (transfer : block.transfer setting state = .ok (left, schedule))
    (matrix : ∀ instr ∈ block.instrs, instr.isMatrix = true → least = 0)
    (spaced : state.IsSpaced least 1) :
    left.IsSpaced least 1 ∧ ∀ queue ∈ schedule.queues, queue.delay.Reaches least 1 := by
  obtain ⟨⟨final, trailing, placed⟩, ran, done⟩ := Outcome.bind_eq_ok.mp transfer
  cases done
  have nothing : Delay.Reaches least 1 ∅ :=
    Delay.reaches_empty (high.trans (by decide)) (by decide)
  obtain ⟨last, closing, each⟩ := isSpaced_of_transferFrom low high ran matrix spaced nothing
  refine ⟨last, fun queue member => ?_⟩
  rcases List.mem_append.mp member with queued | final
  · obtain ⟨placement, there, rfl⟩ := List.mem_map.mp queued
    exact each placement there
  · rw [List.mem_singleton.mp final]
    split <;> exact closing

/-- Every delay in the code of a block is that of a queue which is not empty of delays. -/
theorem Block.lower_of_delay {setting : Setting} {block : Block} {state left : State}
    {schedule : Schedule} (transfer : block.transfer setting state = .ok (left, schedule))
    {code : List Instr} (lowered : (schedule.lower setting.generation).result = .ok code)
    {instr : Instr} (member : instr ∈ code) (delays : instr.opcode = .sDelayAlu) :
    ∃ queue ∈ schedule.queues, queue.delay.isEmpty = false ∧ queue.delay.lower = .ok instr := by
  obtain ⟨⟨final, trailing, placed⟩, ran, done⟩ := Outcome.bind_eq_ok.mp transfer
  cases done
  refine Schedule.lower_of_delay (fun placement there same => ?_) lowered member delays
  -- What is placed has not been absorbed, so it is no delay.
  have places := placed_of_transferFrom ran
  obtain ⟨index, inside, rfl⟩ := List.getElem_of_mem there
  obtain ⟨ready, placement⟩ := places.get (places.length_eq ▸ inside) inside
  have kept := (List.mem_filter.mp (List.get_mem _ ⟨index, places.length_eq ▸ inside⟩)).2
  change (placed.get ⟨index, inside⟩).instr.opcode = .sDelayAlu at same
  rw [placement, opcode_absorbExports] at same
  rw [isAbsorbed_of_delay same] at kept
  cases kept

/-- Some instruction of the program is a matrix instruction. -/
def Program.hasMatrix (program : Program) : Bool :=
  program.blocks.toList.any fun block => block.instrs.any Instr.isMatrix

/-- How far back the instructions of the program leave vector results at least. -/
def Program.leastDistance (program : Program) : Int := if program.hasMatrix then 0 else 1

namespace Program

variable {program : Program}

/-- No result is left ahead of its producer. -/
theorem leastDistance_nonneg : 0 ≤ program.leastDistance := by
  unfold leastDistance
  split <;> decide

/-- Every other result is at distance 1 when the next instruction is issued. -/
theorem leastDistance_le_one : program.leastDistance ≤ 1 := by
  unfold leastDistance
  split <;> decide

/-- Only matrix instructions leave results closer than other vector instructions do. -/
theorem leastDistance_of_isMatrix {position : Nat} (inside : position < program.size)
    {instr : Instr} (member : instr ∈ program.blocks[position].instrs)
    (isMatrix : instr.isMatrix = true) : program.leastDistance = 0 := by
  have found : program.hasMatrix = true :=
    List.any_eq_true.mpr ⟨program.blocks[position], Array.getElem_mem_toList inside,
      List.any_eq_true.mpr ⟨instr, member, isMatrix⟩⟩
  exact if_pos found

/-- In all states that the analysis finds, arithmetic producers are as far back as the program
leaves them. -/
theorem isSpaced_of_analyze {setting : Setting} {limit : Nat} {entry : Vector State program.size}
    (analyzed : (program.analyze setting limit).entry = .ok entry) :
    ∀ position (inside : position < program.size),
      entry[position].IsSpaced program.leastDistance 1 := by
  have valuInside : program.leastDistance ≤ Delay.valuNone :=
    leastDistance_le_one.trans (by decide)
  have stable : StableOn setting program (State.IsSpaced program.leastDistance 1) :=
    { join := fun mine theirs => mine.join theirs _
      transfer := fun inside _ _ _ spaced ran =>
        (Block.isSpaced_of_transfer leastDistance_nonneg leastDistance_le_one ran
          (fun _ member => leastDistance_of_isMatrix inside member) spaced).1 }
  exact every_of_stableOn stable State.isSpaced_empty
    (fun _ => State.isSpaced_atEntry valuInside (by decide)) analyzed

end Program

namespace InsertWaits

variable {config : Config} {target : Target} {program rewritten : Program}

/-- Inserted delays read back as what was queued. Every queue of a block keeps its distances where
they have a condition, vector results behind matrix instructions apart. Every delay in the code of
the block is that of a queue with something to wait for; unless its vector producer is at distance
0, it asks for something and reads back as the distances of the queue. Blocks that are left alone
get no delay. -/
theorem inserted_delays_read_back (rewrites : Rewrites config target program rewritten) :
    ∃ entry : Vector State program.size,
      (program.analyze (config.setting target program) config.maxVisits).entry = .ok entry ∧
      ∀ position (inside : position < program.size),
        (program.blocks[position].isExempt = true →
          rewritten.blocks[position]? = some program.blocks[position]) ∧
        (program.blocks[position].isExempt = false → ∃ left schedule instrs,
          program.blocks[position].transfer (config.setting target program) entry[position] =
            .ok (left, schedule) ∧
          rewritten.blocks[position]? = some { program.blocks[position] with instrs } ∧
          (∀ queue ∈ schedule.queues, queue.delay.Reaches program.leastDistance 1) ∧
          ∀ instr ∈ instrs, instr.opcode = .sDelayAlu → ∃ queue ∈ schedule.queues,
            queue.delay.isEmpty = false ∧ queue.delay.lower = .ok instr ∧
            ∃ imm read, instr.imm? = some imm ∧ instr.delay? = some read ∧
              read.transInstrs = queue.delay.transInstrs ∧
              (1 ≤ queue.delay.valuInstrs →
                imm ≠ 0 ∧ read.valuInstrs = queue.delay.valuInstrs) ∧
              (queue.delay.valuInstrs = 0 → read.valuInstrs = Delay.valuNone)) := by
  obtain ⟨entry, analyzed, each⟩ := rewrites.blocks
  refine ⟨entry, analyzed, fun position inside => ?_⟩
  obtain ⟨instrs, lowered, rewritten⟩ := each position inside
  unfold scheduleBlock at lowered
  constructor
  · intro exempt
    rw [if_pos exempt] at lowered
    cases lowered
    exact rewritten
  · intro visible
    rw [visible, if_neg Bool.false_ne_true] at lowered
    split at lowered
    · rename_i left schedule transfer
      obtain ⟨_, queues⟩ := Block.isSpaced_of_transfer Program.leastDistance_nonneg
        Program.leastDistance_le_one transfer
        (fun _ member => Program.leastDistance_of_isMatrix inside member)
        (Program.isSpaced_of_analyze analyzed position inside)
      refine ⟨left, schedule, instrs, transfer, rewritten, queues, fun instr member delays => ?_⟩
      obtain ⟨queue, queued, pending, emitted⟩ :=
        Block.lower_of_delay transfer lowered member delays
      have near := (queues queue queued).mono Program.leastDistance_nonneg le_rfl
      exact ⟨queue, queued, pending, emitted, near.read_back pending emitted⟩
    · cases lowered

namespace CompareMove

/-- A vector comparison with a scalar result. -/
def compare : Instr where
  opcode := .vCmpEqU32
  operands := [.reg ⟨256⟩ (.vector 1), .reg ⟨257⟩ (.vector 1)]
  definitions := [⟨⟨0⟩, .scalar 1⟩]

/-- A use of its result. -/
def move : Instr where
  opcode := .sMovB32
  operands := [.reg ⟨0⟩ (.scalar 1)]
  definitions := [⟨⟨1⟩, .scalar 1⟩]

/-- A comparison whose result is used at once. -/
def block : Block := { kind := .flag 0, instrs := [compare, move] }

/-- The delay for the result, which takes four more cycles. -/
def delay : Instr := { Instr.immediate .sDelayAlu 1 with scratch := 4 }

/-- A delay is placed in front of the use of the result. -/
theorem rewrites : Rewrites { forceWaits := false, maxVisits := 1 } (.ofGeneration .gfx11)
    { blocks := #[block] } { blocks := #[{ block with instrs := [compare, delay, move] }] } :=
  rewrites_single (by decide) (by decide) (by decide)
    (Outcome.eq_ok_of_toOption (by decide +kernel))

end CompareMove

open CompareMove in
/-- The delay for a vector result comes from a queue at encodable distances, and reads back as
these. -/
theorem compared_delay_reads_back :
    Program.hasMatrix { blocks := #[block] } = false ∧
      ∃ queue : Queue, queue.delay.Reaches 1 1 ∧ queue.delay.lower = .ok delay ∧
        ∃ imm read, delay.imm? = some imm ∧ imm ≠ 0 ∧ delay.delay? = some read ∧
          read.valuInstrs = queue.delay.valuInstrs ∧
          read.transInstrs = queue.delay.transInstrs := by
  refine ⟨by decide, ?_⟩
  obtain ⟨entry, _, each⟩ := inserted_delays_read_back CompareMove.rewrites
  obtain ⟨left, schedule, instrs, _, placed, queues, delays⟩ := (each 0 (by decide)).2 (by decide)
  cases placed
  obtain ⟨queue, queued, _, emitted, imm, read, said, reads, trans, apart, _⟩ :=
    delays delay (by decide) rfl
  have reaches : queue.delay.Reaches 1 1 := queues queue queued
  obtain ⟨something, valu⟩ := apart reaches.farValu
  exact ⟨queue, reaches, emitted, imm, read, said, something, reads, valu, trans⟩

namespace MatrixAdd

/-- A matrix instruction. -/
def multiply : Instr where
  opcode := .vWmmaF32F16
  operands := [.reg ⟨264⟩ (.vector 8), .reg ⟨272⟩ (.vector 8), .reg ⟨256⟩ (.vector 8)]
  definitions := [⟨⟨256⟩, .vector 8⟩]

/-- A use of the result right behind. -/
def add : Instr where
  opcode := .vAddF32
  operands := [.reg ⟨256⟩ (.vector 1), .reg ⟨256⟩ (.vector 1)]
  definitions := [⟨⟨280⟩, .vector 1⟩]

/-- A matrix instruction whose result is used at once. -/
def block : Block := { kind := .flag 0, instrs := [multiply, add] }

/-- A delay that asks for nothing, with the four cycles that the result still takes. -/
def delay : Instr := { Instr.immediate .sDelayAlu 0 with scratch := 4 }

/-- What is queued for the result. -/
def queued : Delay := { valuInstrs := 0, valuCycles := 4 }

end MatrixAdd

open MatrixAdd in
/-- The delay for a matrix result right behind its instruction has the immediate 0 and reads back as
no dependency, although there is something to wait for. -/
theorem matrix_delay_says_nothing :
    WellFormed.checkGraphs { blocks := #[block] } = .ok () ∧
      WellFormed.checkBlock 0 block = .ok () ∧
      (∀ instr ∈ block.instrs, instr.opcode ≠ .sDelayAlu) ∧
      Rewrites { forceWaits := false, maxVisits := 1 } (.ofGeneration .gfx11)
        { blocks := #[block] } { blocks := #[{ block with instrs := [multiply, delay, add] }] } ∧
      queued.isEmpty = false ∧ queued.lower = .ok delay ∧ delay.imm? = some 0 ∧
      delay.delay?.map Delay.valuInstrs = some Delay.valuNone := by
  refine ⟨rfl, by decide, by decide, ?_, by decide, by decide, rfl, rfl⟩
  exact rewrites_single (by decide) (by decide) (by decide)
    (Outcome.eq_ok_of_toOption (by decide +kernel))

end InsertWaits

end WaveHazard
