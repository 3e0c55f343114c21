import WaveHazard.Proofs.OnlyWaits
import WaveHazard.Proofs.RepeatedDemand
import WaveHazard.Proofs.Unhindered

/-! # Clauses stay together

Where a block looks ahead and a clause is extended, the waits of all its members are pulled in front
of the first one. When the members are issued one after the other, none of them finds anything left
to wait for, so the clause stands in the code without a wait or a delay inside.

This is about accesses that order nothing but registers: exports, global data share, writing back
the scalar cache and accesses with acquire or release semantics wait for more than that.
-/

namespace WaveHazard

open Machine Wait

namespace Hazard

variable {setting : Setting} {state after final : State} {instr : Instr} {footprint : Footprint}

/-- Whether an instruction orders more than its registers: exports, by their encoding or by their
payload, global data share, writing back the scalar cache, ordered counts, and acquire or release
semantics. -/
def ordersMore (instr : Instr) : Bool :=
  instr.isExport || instr.isGlobalDataShare || instr.opcode == .sDcacheWb
    || instr.opcode == .dsOrderedCount
    || instr.sync.semantics.intersects Semantics.acquireRelease
    || match instr.payload with
      | .exportTo _ _ _ _ => true
      | _ => false

/-- An access to memory that orders nothing but registers. -/
structure PlainAccess (instr : Instr) : Prop where
  access : isAccess instr.encoding = true
  plain : ordersMore instr = false

namespace PlainAccess

variable (plain : PlainAccess instr)

include plain

theorem notGlobal : instr.isGlobalDataShare = false := by
  have orders := plain.plain
  simp only [ordersMore, Bool.or_eq_false_iff] at orders
  exact orders.1.1.1.1.2

theorem opcode_ne {opcode : Opcode} (other : isAccess opcode.encoding = false) :
    instr.opcode ≠ opcode := by
  rintro rfl
  exact Bool.false_ne_true (other.symm.trans plain.access)

/-- It is no ordered count. -/
theorem orderedCountReleases? : orderedCountReleases? instr = none := by
  have orders := plain.plain
  simp only [ordersMore, Bool.or_eq_false_iff, beq_eq_false_iff_ne, ne_eq] at orders
  unfold Hazard.orderedCountReleases?
  split
  · rw [if_neg orders.1.1.2]
  · rfl

/-- It neither acquires nor releases. -/
theorem intersects_of_le {semantics : Semantics} (below : semantics ≤ Semantics.acquireRelease) :
    instr.sync.semantics.intersects semantics = false := by
  have orders := plain.plain
  simp only [ordersMore, Bool.or_eq_false_iff] at orders
  by_contra shared
  obtain ⟨position, mine, named⟩ := FlagSet.intersects_iff.mp (eq_true_of_ne_false shared)
  have both := FlagSet.intersects_iff.mpr ⟨position, mine, below position named⟩
  rw [orders.1.2] at both
  cases both

/-- It does not leave an ordered section. -/
theorem leavesOrderedSection (generation : Generation) :
    leavesOrderedSection generation instr = false := by
  have orders := plain.plain
  have silent : instr.opcode ≠ .sSendmsg := plain.opcode_ne rfl
  unfold Hazard.leavesOrderedSection
  simp only [ordersMore, Bool.or_eq_false_iff] at orders
  split
  · split
    · rename_i payload
      rw [payload] at orders
      cases orders.2
    · rfl
  · simp [silent]

/-- It stays where it is. -/
theorem isAbsorbed (generation : Generation) : isAbsorbed generation instr = false := by
  by_contra absorbed
  have idle := operationsOf_of_isAbsorbed (eq_true_of_ne_false absorbed)
  have access := plain.access
  unfold operationsOf at idle
  cases encoding : instr.encoding with
  | smem | ldsdir | flat =>
      rw [encoding] at idle
      cases idle
  | ds =>
      rw [encoding, plain.notGlobal] at idle
      cases idle
  | mubuf | mtbuf | mimg | global | scratch =>
      rw [encoding] at idle
      dsimp only [vectorMemoryOperations] at idle
      split at idle <;> cases idle
  | _ =>
      rw [encoding] at access
      cases access

/-- It asks for no wait or delay by itself. -/
theorem absorb (state : State) : absorb setting state ∅ instr = ∅ := by
  have kept := plain.isAbsorbed setting.generation
  simp only [Hazard.isAbsorbed, Bool.or_eq_false_iff, Option.isSome_eq_false_iff,
    Option.isNone_iff_eq_none, beq_eq_false_iff_ne, ne_eq] at kept
  unfold Hazard.absorb Instr.delay?
  rw [kept.1.1, if_neg kept.2]

/-- Nothing is due behind it. -/
theorem afterIssue (state : State) : state.afterIssue setting instr = ∅ := by
  have relaxed : instr.sync.semantics.intersects Semantics.acquire = false :=
    plain.intersects_of_le (FlagSet.le_or_left _ _)
  have fences : state.fenceWait setting ∅ instr.sync Semantics.acquire = ∅ := by
    unfold State.fenceWait
    simp [relaxed]
  unfold State.afterIssue
  dsimp only
  rw [fences, plain.orderedCountReleases?, if_neg nofun]
  apply Requirement.ext_get
  intro counter
  rw [State.dropIdle, Requirement.get_only, Requirement.get_empty, ite_self]

/-- It is no arithmetic, so the delays of its operands do not matter. -/
theorem notArithmetic : (instr.isVector || instr.isScalar) = false := by
  have access := plain.access
  unfold Instr.isVector Instr.isScalar
  revert access
  generalize instr.encoding = encoding
  cases encoding <;> decide

/-- If it is unhindered it does not have to wait, unless waits are forced: for nothing else would
it. -/
theorem ready (unforced : setting.forceWaits = false)
    (unhindered : state.Unhindered setting instr footprint) :
    state.Ready setting instr footprint := by
  intro counter bound busy asks
  cases asks with
  | everything drains _ =>
      rcases drains with jump | forced
      · exact plain.opcode_ne rfl jump
      · exact Bool.false_ne_true (unforced.symm.trans forced)
  | orderedSection _ leaves _ =>
      exact Bool.false_ne_true ((plain.leavesOrderedSection _).symm.trans leaves)
  | read isRead found waits pending =>
      rcases unhindered.reads _ isRead _ found with writeOnly | ⟨_, unset⟩
      · exact Bool.false_ne_true (writeOnly.symm.trans waits)
      · have unbounded := unset counter
        rw [Requirement.isSet, pending] at unbounded
        cases unbounded
  | write written found apart pending =>
      have inOrder := unhindered.writes _ written _ found counter
        (by rw [Requirement.isSet, pending]; rfl)
      exact Bool.false_ne_true (apart.symm.trans inOrder)
  | scalar settles =>
      rcases settles with writesBack | stale
      · have orders := plain.plain
        simp [ordersMore, writesBack] at orders
      · exact Bool.false_ne_true ((unhindered.scalar stale).2.symm.trans busy)
  | orderedCount releases _ =>
      rw [plain.orderedCountReleases?] at releases
      cases releases
  | fence orders _ _ _ _ =>
      have other : instr.opcode ≠ .pBarrier := plain.opcode_ne rfl
      rw [ordersFirst, if_neg other, plain.intersects_of_le (FlagSet.or_le_iff.mp le_rfl).2]
        at orders
      cases orders

/-- The turn of an access that is covered by a clause and unhindered: it is placed with nothing in
front of it, and nothing is due behind it. -/
theorem of_takeTurn (unforced : setting.forceWaits = false)
    (unhindered : state.Unhindered setting instr footprint)
    (touches : instr.footprint = .ok footprint) {covered : Nat} {rest : List Instr} {turn : Turn}
    (taken : takeTurn setting (covered + 1) state ∅ instr rest = .ok turn) :
    turn.covered = covered ∧ turn.queue = ∅ ∧ turn.placed = some ⟨∅, instr⟩ ∧
      issueAll setting state instr = .ok turn.state := by
  have demanded : state.demand setting ∅ instr instr.sync = .ok (state, ∅) := by
    refine (plain.ready unforced unhindered).demand ?_ touches
    intro slot _ entry _ _ arithmetic
    exact absurd (plain.notArithmetic.symm.trans arithmetic) Bool.false_ne_true
  have unpulled : pullAhead setting (covered + 1) instr state ∅ rest =
      .ok (state, ∅, none, covered) := rfl
  obtain ⟨passed, required, taken⟩ := Outcome.bind_eq_ok.mp taken
  rw [plain.absorb, demanded] at required
  cases required
  obtain ⟨pulled, looked, taken⟩ := Outcome.bind_eq_ok.mp taken
  rw [unpulled] at looked
  cases looked
  obtain ⟨issued, issue, taken⟩ := Outcome.bind_eq_ok.mp taken
  rw [plain.isAbsorbed, if_neg Bool.false_ne_true, plain.afterIssue] at taken
  cases taken
  refine ⟨rfl, rfl, ?_, issue⟩
  unfold absorbExports
  split
  · rename_i bound _ asked
    cases asked
  · rfl

end PlainAccess

/-- The members of a clause that come after its first one: plain accesses of one kind, later ones
apart from earlier ones. -/
structure Fellows (members : List (Instr × Footprint)) : Prop where
  plain : ∀ member ∈ members, PlainAccess member.1
  touches : ∀ member ∈ members, member.1.footprint = .ok member.2
  pairs : members.Pairwise fun earlier later => Alike earlier.1 later.1 ∧ Apart earlier.2 later.2

/-- The members behind the first one are fellows as well. -/
theorem Fellows.tail {member : Instr × Footprint} {members : List (Instr × Footprint)}
    (fellows : Fellows (member :: members)) : Fellows members where
  plain other listed := fellows.plain other (List.mem_cons_of_mem _ listed)
  touches other listed := fellows.touches other (List.mem_cons_of_mem _ listed)
  pairs := fellows.pairs.of_cons

/-- Behind the first of them the others are still unhindered. -/
theorem Fellows.unhindered {member : Instr × Footprint} {members : List (Instr × Footprint)}
    (fellows : Fellows (member :: members)) (occurs : State.Occurs setting.target state)
    (unhindered : ∀ other ∈ members, state.Unhindered setting other.1 other.2)
    (issued : issueAll setting state member.1 = .ok after) :
    ∀ other ∈ members, after.Unhindered setting other.1 other.2 := by
  intro other listed
  obtain ⟨alike, apart⟩ := List.rel_of_pairwise_cons fellows.pairs listed
  have plain := fellows.plain member List.mem_cons_self
  exact (unhindered other listed).issueAll alike occurs plain.access plain.notGlobal
    (fellows.touches member List.mem_cons_self) apart issued

/-- Members that are covered and unhindered are placed one after the other, with nothing in front of
any of them. -/
theorem placed_of_members (unforced : setting.forceWaits = false)
    {members : List (Instr × Footprint)} (fellows : Fellows members)
    (occurs : State.Occurs setting.target state)
    (unhindered : ∀ member ∈ members, state.Unhindered setting member.1 member.2)
    {rest : List Instr} {trailing : Queue} {placed : List Placement}
    (ran : transferFrom setting members.length state ∅ (members.map Prod.fst ++ rest) =
      .ok (final, trailing, placed)) :
    ∃ others, placed = (members.map Prod.fst).map (⟨∅, ·⟩) ++ others := by
  induction members generalizing state placed with
  | nil => exact ⟨placed, rfl⟩
  | cons member members ih =>
      obtain ⟨turn, others, taken, following, rfl⟩ := of_transferFrom_cons ran
      obtain ⟨covered, queue, placed, issued⟩ :=
        (fellows.plain member List.mem_cons_self).of_takeTurn unforced
          (unhindered member List.mem_cons_self) (fellows.touches member List.mem_cons_self) taken
      rw [covered, queue] at following
      obtain ⟨later, rfl⟩ := ih fellows.tail (occurs.issueAll issued)
        (fellows.unhindered occurs (fun other listed =>
          unhindered other (List.mem_cons_of_mem _ listed)) issued) following
      exact ⟨later, by rw [placed]; rfl⟩

/-- Instructions with nothing in front of them are emitted one after the other. -/
theorem code_of_members {generation : Generation} {members code : List Instr}
    {others : List Placement} {trailing : Queue}
    (lowered : (Schedule.lower generation
      { placed := members.map (⟨∅, ·⟩) ++ others, trailing }).result = .ok code) :
    ∃ back, code = members ++ back := by
  induction members generalizing code with
  | nil => exact ⟨code, rfl⟩
  | cons member members ih =>
      obtain ⟨waits, later, nothing, following, rfl⟩ := Schedule.lower_cons lowered
      cases nothing
      obtain ⟨back, rfl⟩ := ih following
      exact ⟨back, rfl⟩

/-- Where an instruction looks ahead, a run has arrived at its turn, and the code in front of it is
that of the instructions before. -/
theorem arrives_at_lookAhead {covered joined position : Nat} {queue trailing ending : Queue}
    {instrs code : List Instr} {placed : List Placement}
    (occurs : State.Occurs setting.target state) (forward : 0 ≤ queue.delay.maxCycles)
    (ran : transferFrom setting covered state queue instrs = .ok (final, trailing, placed))
    (lowered : (Schedule.lower setting.generation { placed, trailing := ending }).result = .ok code)
    (looked : lookAhead setting covered state queue instrs position = .ok (some joined)) :
    ∃ covered middle due head rest turn others front back,
      State.Occurs setting.target middle ∧ 0 ≤ due.delay.maxCycles ∧
      instrs.drop position = head :: rest ∧
      takeTurn setting covered middle due head rest = .ok turn ∧ turn.joined = some joined ∧
      transferFrom setting turn.covered turn.state turn.queue rest = .ok (final, trailing, others) ∧
      (Schedule.lower setting.generation
        { placed := turn.placed.toList ++ others, trailing := ending }).result = .ok back ∧
      code = front ++ back ∧
      List.Forall₂ LowersExports
        ((instrs.take position).filter fun instr => !isAbsorbed setting.generation instr)
        (front.filter fun instr => !isAbsorbed setting.generation instr) := by
  induction instrs generalizing covered state queue position placed code with
  | nil =>
      rw [lookAhead] at looked
      cases looked
  | cons instr rest ih =>
      obtain ⟨turn, others, taken, goes, rfl⟩ := of_transferFrom_cons ran
      rw [lookAhead] at looked
      obtain ⟨again, same, looked⟩ := Outcome.bind_eq_ok.mp looked
      cases taken.symm.trans same
      cases position with
      | zero =>
          exact ⟨covered, state, queue, instr, rest, turn, others, [], code, occurs, forward, rfl,
            taken, Except.ok.inj looked, goes, lowered, rfl, .nil⟩
      | succ position =>
          obtain ⟨behind, later⟩ := occurs.takeTurn forward taken
          obtain ⟨_, _, _, _, queued, _, _, _, _, proceeds⟩ := of_takeTurn taken
          rcases proceeds with ⟨absorbed, _, nothing⟩ | ⟨kept, _, placed⟩
          · rw [nothing] at lowered
            obtain ⟨left, middle, due, head, others, next, last, front, back, reached, ahead, split,
              turns, joins, runs, lowers, rfl, stays⟩ := ih behind later goes lowered looked
            refine ⟨left, middle, due, head, others, next, last, front, back, reached, ahead, split,
              turns, joins, runs, lowers, rfl, ?_⟩
            rw [List.take_succ_cons, List.filter_cons_of_neg (by simp [absorbed])]
            exact stays
          · rw [placed] at lowered
            obtain ⟨waits, following, waiting, emitted, rfl⟩ := Schedule.lower_cons lowered
            obtain ⟨left, middle, due, head, others, next, last, front, back, reached, ahead, split,
              turns, joins, runs, lowers, rfl, stays⟩ := ih behind later goes emitted looked
            refine ⟨left, middle, due, head, others, next, last,
              waits ++ (absorbExports queued instr).instr :: front, back, reached, ahead, split,
              turns, joins, runs, lowers, by simp, ?_⟩
            have remains := isAbsorbed_absorbExports queued kept
            rw [List.take_succ_cons, List.filter_cons_of_pos (by simp [kept]), List.filter_append,
              filter_of_queue_lower waiting, List.nil_append,
              List.filter_cons_of_pos (by simp [remains])]
            exact .cons (lowersExports_absorbExports queued instr) stays

/-- What a turn that extends a clause finds: the members, with their waits behind it. -/
theorem members_of_takeTurn {covered joined : Nat} {queue : Queue} {head : Instr}
    {rest : List Instr} {turn : Turn} (occurs : State.Occurs setting.target state)
    (forward : 0 ≤ queue.delay.maxCycles)
    (taken : takeTurn setting covered state queue head rest = .ok turn)
    (extended : turn.joined = some joined) (more : 0 < joined)
    (plain : ∀ instr ∈ (head :: rest).take (joined + 1), ordersMore instr = false) :
    ∃ members queued, members.map Prod.fst = rest.take joined ∧ members.length = joined ∧
      turn.covered = joined ∧ turn.queue = ∅ ∧ turn.placed = some (absorbExports queued head) ∧
      Fellows members ∧ State.Occurs setting.target turn.state ∧
      ∀ member ∈ members, turn.state.Unhindered setting member.1 member.2 := by
  obtain ⟨footprint, passed, asked, ready, queued, touches, required, looked, issued, proceeds⟩ :=
    of_takeTurn taken
  rcases looked with ⟨apart, _⟩ | ⟨number, same, covers, pulled⟩
  · rw [apart] at extended
    cases extended
  cases Option.some.inj (same.symm.trans extended)
  obtain ⟨started, begun, pulling⟩ := begins_of_pullClause pulled more
  cases touches.symm.trans begun
  obtain ⟨members, joins, listed, counted⟩ := joins_of_pullClause pulling
  obtain ⟨behind, later⟩ := occurs.require (State.Reachable.forward_absorb forward head) touches
    required
  have reached := (behind.requires later (requires_of_pullClause pulled)).1
  rw [List.take_succ_cons, List.forall_mem_cons, ← listed] at plain
  -- All of them are accesses because exports are excluded.
  have notExport : head.isExport = false := by
    have orders := plain.1
    simp only [ordersMore, Bool.or_eq_false_iff] at orders
    exact orders.1.1.1.1.1
  have alike (member : Instr × Footprint) (there : member ∈ members) : Alike head member.1 ∧
      isAccess head.encoding = true :=
    (alike_of_sharesClause (joins.shares member there).1).imp_right (· notExport)
  have first : PlainAccess head := by
    obtain ⟨member, there⟩ := List.exists_mem_of_length_pos (counted ▸ more)
    exact ⟨(alike member there).2, plain.1⟩
  have whole : Fellows ((head, footprint) :: members) := by
    refine ⟨List.forall_mem_cons.mpr ⟨first, fun member there => ?_⟩,
      List.forall_mem_cons.mpr ⟨touches, fun member there => (joins.shares member there).2⟩,
      .cons (fun member there => ⟨(alike member there).1, joins.apart.1 member there⟩) ?_⟩
    · refine ⟨?_, plain.2 member.1 (List.mem_map_of_mem there)⟩
      rw [(alike member there).1.encoding]
      exact first.access
    · refine joins.apart.2.imp_of_mem fun mine theirs apart => ⟨?_, apart⟩
      exact (alike _ mine).1.trans (alike _ theirs).1
  refine ⟨members, queued, listed, counted, covers, ?_, ?_, whole.tail, reached.issueAll issued,
    whole.unhindered reached (fun member there => (joins.ready member there).unhindered reached)
      issued⟩
  all_goals rcases proceeds with ⟨absorbed, _, _⟩ | ⟨_, queue, placed⟩
  · exact absurd ((first.isAbsorbed _).symm.trans absorbed) Bool.false_ne_true
  · rw [queue, first.afterIssue]
    rfl
  · exact absurd ((first.isAbsorbed _).symm.trans absorbed) Bool.false_ne_true
  · exact placed

end Hazard

namespace InsertWaits

open Hazard

variable {setting : Setting}

/-- Where a block looks ahead and extends a clause by accesses that order nothing but registers, the
instructions of the clause stand in the rewritten block one after the other: no wait and no delay is
emitted between them. Everything they need is emitted before the first one, behind the instructions
that were before it. -/
theorem clause_stays_together {state : State} {block : Block} {code : List Instr}
    {position joined : Nat} (occurs : State.Occurs setting.target state)
    (unforced : setting.forceWaits = false) (handled : block.isExempt = false)
    (scheduled : (scheduleBlock setting block state).result = .ok code)
    (looked : lookAhead setting 0 state ∅ block.instrs position = .ok (some joined))
    (extended : 0 < joined)
    (plain : ∀ instr ∈ (block.instrs.drop position).take (joined + 1),
      ordersMore instr = false) :
    ∃ head members front lead back,
      (block.instrs.drop position).take (joined + 1) = head :: members ∧
      members.length = joined ∧ code = front ++ lead :: members ++ back ∧
      LowersExports head lead ∧
      List.Forall₂ LowersExports
        ((block.instrs.take position).filter fun instr => !isAbsorbed setting.generation instr)
        (front.filter fun instr => !isAbsorbed setting.generation instr) := by
  unfold scheduleBlock at scheduled
  rw [handled, if_neg Bool.false_ne_true] at scheduled
  split at scheduled
  case h_2 => cases scheduled
  rename_i left schedule transfer
  obtain ⟨⟨final, trailing, placed⟩, ran, done⟩ := Outcome.bind_eq_ok.mp transfer
  cases done
  obtain ⟨covered, middle, due, head, rest, turn, others, front, back, reached, forward, split,
    taken, joins, ran, lowered, rfl, stays⟩ :=
    arrives_at_lookAhead occurs le_rfl ran scheduled looked
  rw [split] at plain
  obtain ⟨members, queued, listed, counted, covers, queue, placed, fellows, behind, unhindered⟩ :=
    members_of_takeTurn reached forward taken joins extended plain
  -- The rest of the run places the members, and the code follows the placements.
  rw [covers, queue, ← counted, ← List.take_append_drop joined rest, ← listed] at ran
  obtain ⟨later, rfl⟩ := placed_of_members unforced fellows behind unhindered ran
  rw [placed] at lowered
  obtain ⟨waits, following, waiting, emitted, rfl⟩ := Schedule.lower_cons lowered
  obtain ⟨ending, rfl⟩ := code_of_members emitted
  refine ⟨head, members.map Prod.fst, front ++ waits, (absorbExports queued head).instr, ending,
    ?_, by simpa using counted, by simp, lowersExports_absorbExports queued head, ?_⟩
  · rw [split, List.take_succ_cons, listed]
  · rw [List.filter_append, filter_of_queue_lower waiting, List.append_nil]
    exact stays

namespace DependentLoads

/-- A scalar load of a register from a buffer. -/
def bufferLoad (result buffer : Nat) : Instr where
  opcode := .sBufferLoadDword
  operands := [.reg ⟨buffer⟩ (.scalar 4)]
  definitions := [⟨⟨result⟩, .scalar 1⟩]

/-- A scalar load of a register from the address that two others hold. -/
def load (result address : Nat) : Instr where
  opcode := .sLoadDword
  operands := [.reg ⟨address⟩ (.scalar 2)]
  definitions := [⟨⟨result⟩, .scalar 1⟩]

/-- A load of half of an address, and two more loads of which the last one needs the address. -/
def block : Block where
  kind := .flag 0
  instrs := [bufferLoad 0 4, load 8 2, load 9 0]

/-- The block with the wait that the last load needs in front of the load before it. -/
def code : List Instr := [bufferLoad 0 4, .immediate .sWaitcnt 0xfc07, load 8 2, load 9 0]

end DependentLoads

open DependentLoads in
/-- The last two loads form a clause. What the last one waits for, the one before it waits for
already. -/
theorem dependent_loads_stay_together :
    (scheduleBlock { target := .ofGeneration .gfx11 } block ∅).result = .ok code ∧
      lookAhead { target := .ofGeneration .gfx11 } 0 ∅ ∅ block.instrs 1 = .ok (some 1) ∧
      ∃ front lead back, LowersExports (load 8 2) lead ∧
        code = front ++ lead :: [load 9 0] ++ back := by
  have scheduled : (scheduleBlock { target := .ofGeneration .gfx11 } block ∅).result = .ok code :=
    Outcome.eq_ok_of_toOption (by decide +kernel)
  have looked : lookAhead { target := .ofGeneration .gfx11 } 0 ∅ ∅ block.instrs 1 =
      .ok (some 1) :=
    Outcome.eq_ok_of_toOption (by decide +kernel)
  refine ⟨scheduled, looked, ?_⟩
  obtain ⟨head, members, front, lead, back, clause, _, split, lowers, _⟩ :=
    clause_stays_together State.Occurs.empty rfl (by decide) scheduled looked Nat.zero_lt_one
      (by decide)
  cases clause
  exact ⟨front, lead, back, lowers, split⟩

end InsertWaits

end WaveHazard
