import WaveHazard.Proofs.Occurrence

/-! # The turns of a block

The transfer function takes the instructions of a block in turn. `takeTurn` is what it does with one
of them, and `transferFrom_cons` says that a run is one turn after the other. At its turn an
instruction may look ahead and pull the waits of the following ones to its front; `lookAhead` says
how many instructions joined a clause at a position of the block.
-/

namespace WaveHazard.Hazard

open Machine Wait

/-- What happened at the turn of an instruction. -/
structure Turn where
  /-- The number of instructions that joined a clause with this one, if it looked ahead. -/
  joined : Option Nat
  /-- The number of instructions from the next one on whose waits have been pulled to the front. -/
  covered : Nat
  /-- The state behind the instruction. -/
  state : State
  /-- What is due in front of the next instruction. -/
  queue : Queue
  /-- Where the instruction was placed, unless it was absorbed. -/
  placed : Option Placement

/-- Look ahead from an instruction, unless its waits have been pulled to the front of a clause and
it has nothing more to wait for: the state and the queue behind that, how many instructions joined,
and how many of the following ones are covered. -/
def pullAhead (setting : Setting) (covered : Nat) (instr : Instr) (state : State) (queue : Queue)
    (rest : List Instr) : Except Fault (State × Queue × Option Nat × Nat) :=
  if covered = 0 ∨ !queue.wait.isEmpty then
    (pullClause setting instr state queue none rest).map fun (state, queue, joined) =>
      (state, queue, some joined, joined)
  else .ok (state, queue, none, covered - 1)

/-- The turn of one instruction with the given ones behind it. -/
def takeTurn (setting : Setting) (covered : Nat) (state : State) (queue : Queue) (instr : Instr)
    (rest : List Instr) : Except Fault Turn := do
  let queue := absorb setting state queue instr
  let (state, queue) ← state.demand setting queue instr instr.sync
  let (state, queue, joined, covered) ← pullAhead setting covered instr state queue rest
  let state ← issueAll setting state instr
  if isAbsorbed setting.generation instr then
    return { joined, covered, state, queue, placed := none }
  else
    return { joined, covered, state,
             queue := { wait := state.afterIssue setting instr },
             placed := some (absorbExports queue instr) }

/-- How many instructions join a clause with the one at a position, if that one looks ahead. -/
def lookAhead (setting : Setting) :
    Nat → State → Queue → List Instr → Nat → Except Fault (Option Nat)
  | _, _, _, [], _ => .ok none
  | covered, state, queue, instr :: rest, position => do
      let turn ← takeTurn setting covered state queue instr rest
      match position with
      | 0 => return turn.joined
      | position + 1 => lookAhead setting turn.covered turn.state turn.queue rest position

variable {setting : Setting}

/-- A run is the turn of its first instruction, and then the run of the others. -/
theorem transferFrom_cons (covered : Nat) (state : State) (queue : Queue) (instr : Instr)
    (rest : List Instr) :
    transferFrom setting covered state queue (instr :: rest) = (do
      let turn ← takeTurn setting covered state queue instr rest
      let (final, trailing, placed) ←
        transferFrom setting turn.covered turn.state turn.queue rest
      return (final, trailing, turn.placed.toList ++ placed)) := by
  unfold takeTurn
  rw [transferFrom]
  dsimp only
  cases state.demand setting (absorb setting state queue instr) instr instr.sync with
  | error fault => rfl
  | ok passed =>
      -- With or without looking ahead, the instruction is issued, and absorbed or placed.
      have issues (ready : State) (asked : Queue) (joined : Option Nat) (left : Nat) :
          (do
            let issued ← issueAll setting ready instr
            if isAbsorbed setting.generation instr then
              transferFrom setting left issued asked rest
            else
              let (final, trailing, placed) ← transferFrom setting left issued
                { wait := issued.afterIssue setting instr } rest
              return (final, trailing, absorbExports asked instr :: placed)) = (do
          let turn ← (do
            let issued ← issueAll setting ready instr
            if isAbsorbed setting.generation instr then
              return ({ joined, covered := left, state := issued, queue := asked,
                        placed := none } : Turn)
            else
              return { joined, covered := left, state := issued,
                       queue := { wait := issued.afterIssue setting instr },
                       placed := some (absorbExports asked instr) })
          let (final, trailing, placed) ←
            transferFrom setting turn.covered turn.state turn.queue rest
          return (final, trailing, turn.placed.toList ++ placed)) := by
        cases issueAll setting ready instr with
        | error fault => rfl
        | ok issued =>
            by_cases absorbed : isAbsorbed setting.generation instr = true
            · simp only [absorbed, if_true]
              cases ran : transferFrom setting left issued asked rest with
              | error fault => simp [bind, Except.bind, pure, Except.pure, ran]
              | ok result => simp [bind, Except.bind, pure, Except.pure, ran]
            · simp [absorbed, bind, Except.bind, pure, Except.pure]
      by_cases looks : covered = 0 ∨ (!passed.2.wait.isEmpty) = true
      · simp only [pullAhead, looks, if_true, bind, Except.bind]
        cases pullClause setting instr passed.1 passed.2 none rest with
        | error fault => rfl
        | ok pulled => exact issues pulled.1 pulled.2.1 (some pulled.2.2) pulled.2.2
      · simp only [pullAhead, looks, if_false, bind, Except.bind]
        exact issues passed.1 passed.2 none (covered - 1)

/-- What a turn consists of: the instruction requires its waits, perhaps pulls those of a clause to
its front, is issued, and is absorbed or placed. -/
theorem of_takeTurn {covered : Nat} {state : State} {queue : Queue} {instr : Instr}
    {rest : List Instr} {turn : Turn}
    (taken : takeTurn setting covered state queue instr rest = .ok turn) :
    ∃ footprint passed asked ready queued, instr.footprint = .ok footprint ∧
      state.require setting (absorb setting state queue instr) instr footprint instr.sync =
        (passed, asked) ∧
      (turn.joined = none ∧ ready = passed ∧ queued = asked ∨
        ∃ joined, turn.joined = some joined ∧ turn.covered = joined ∧
          pullClause setting instr passed asked none rest = .ok (ready, queued, joined)) ∧
      issueAll setting ready instr = .ok turn.state ∧
      (isAbsorbed setting.generation instr = true ∧ turn.queue = queued ∧ turn.placed = none ∨
        isAbsorbed setting.generation instr = false ∧
          turn.queue = { wait := turn.state.afterIssue setting instr } ∧
          turn.placed = some (absorbExports queued instr)) := by
  obtain ⟨⟨passed, asked⟩, demanded, taken⟩ := Outcome.bind_eq_ok.mp taken
  obtain ⟨footprint, touches, demanded⟩ := Outcome.bind_eq_ok.mp demanded
  have required := Except.ok.inj demanded
  obtain ⟨⟨ready, queued, joined, left⟩, looked, taken⟩ := Outcome.bind_eq_ok.mp taken
  obtain ⟨issued, issue, taken⟩ := Outcome.bind_eq_ok.mp taken
  have pulled : joined = none ∧ ready = passed ∧ queued = asked ∨ ∃ number,
      joined = some number ∧ left = number ∧
        pullClause setting instr passed asked none rest = .ok (ready, queued, number) := by
    unfold pullAhead at looked
    split at looked
    · obtain ⟨_, pulled, same⟩ := Outcome.map_eq_ok.mp looked
      cases same
      exact .inr ⟨_, rfl, rfl, pulled⟩
    · cases looked
      exact .inl ⟨rfl, rfl, rfl⟩
  refine ⟨footprint, passed, asked, ready, queued, touches, required, ?_⟩
  split at taken
  · rename_i absorbed
    cases taken
    exact ⟨pulled, issue, .inl ⟨absorbed, rfl, rfl⟩⟩
  · rename_i kept
    cases taken
    exact ⟨pulled, issue, .inr ⟨(Bool.not_eq_true _).mp kept, rfl, rfl⟩⟩

/-- A run whose first turn is known goes on with the others. -/
theorem of_transferFrom_cons {covered : Nat} {state final : State} {queue trailing : Queue}
    {instr : Instr} {rest : List Instr} {placed : List Placement}
    (ran : transferFrom setting covered state queue (instr :: rest) =
      .ok (final, trailing, placed)) :
    ∃ turn others, takeTurn setting covered state queue instr rest = .ok turn ∧
      transferFrom setting turn.covered turn.state turn.queue rest =
        .ok (final, trailing, others) ∧ placed = turn.placed.toList ++ others := by
  rw [transferFrom_cons] at ran
  obtain ⟨turn, taken, ran⟩ := Outcome.bind_eq_ok.mp ran
  obtain ⟨⟨_, _, others⟩, rest, done⟩ := Outcome.bind_eq_ok.mp ran
  cases done
  exact ⟨turn, others, taken, rest, rfl⟩

namespace State.Occurs

variable {state after : State} {queue passed : Queue} {instr : Instr}

/-- Issuing an instruction leads to a state that occurs. -/
theorem issueAll (occurs : Occurs setting.target state)
    (issued : issueAll setting state instr = .ok after) : Occurs setting.target after := by
  unfold Hazard.issueAll at issued
  split at issued
  · rename_i recent
    obtain ⟨middle, arithmetic, issued⟩ := Outcome.bind_eq_ok.mp issued
    exact .issue (.issueArithmetic recent occurs arithmetic) issued
  · exact .issue occurs issued

/-- Behind waits a state still occurs, and no latency in the queue has fallen below zero. -/
theorem require (occurs : Occurs setting.target state) {footprint : Footprint} {sync : Sync}
    (forward : 0 ≤ queue.delay.maxCycles) (touches : instr.footprint = .ok footprint)
    (required : state.require setting queue instr footprint sync = (after, passed)) :
    Occurs setting.target after ∧ 0 ≤ passed.delay.maxCycles := by
  have demanded : state.demand setting queue instr sync = .ok (after, passed) :=
    Outcome.bind_eq_ok.mpr ⟨footprint, touches, congrArg Except.ok required⟩
  exact ⟨.demand rfl forward occurs demanded,
    forward.trans (Delay.maxCycles_mono (delay_le_of_require required))⟩

/-- Turning to the needs of an instruction leads to a state that occurs. -/
theorem requires (occurs : Occurs setting.target state) (forward : 0 ≤ queue.delay.maxCycles)
    (requires : Requires setting state queue after passed) :
    Occurs setting.target after ∧ 0 ≤ passed.delay.maxCycles := by
  induction requires with
  | done state queue => exact ⟨occurs, forward⟩
  | step touches required _ ih =>
      obtain ⟨behind, later⟩ := occurs.require forward touches required
      exact ih behind later

/-- Behind a turn a state still occurs. -/
theorem takeTurn (occurs : Occurs setting.target state) (forward : 0 ≤ queue.delay.maxCycles)
    {covered : Nat} {rest : List Instr} {turn : Turn}
    (taken : takeTurn setting covered state queue instr rest = .ok turn) :
    Occurs setting.target turn.state ∧ 0 ≤ turn.queue.delay.maxCycles := by
  obtain ⟨footprint, passed, asked, ready, queued, touches, required, looked, issue, proceeds⟩ :=
    of_takeTurn taken
  obtain ⟨behind, later⟩ := occurs.require (Reachable.forward_absorb forward instr) touches required
  have pulled : Occurs setting.target ready ∧ 0 ≤ queued.delay.maxCycles := by
    rcases looked with ⟨_, rfl, rfl⟩ | ⟨joined, _, _, pulled⟩
    · exact ⟨behind, later⟩
    · exact behind.requires later (requires_of_pullClause pulled)
  refine ⟨pulled.1.issueAll issue, ?_⟩
  rcases proceeds with ⟨_, queue, _⟩ | ⟨_, queue, _⟩
  · rw [queue]
    exact pulled.2
  · rw [queue]
    exact le_rfl

/-- The rest of a block leads to a state that occurs. -/
theorem transferFrom (occurs : Occurs setting.target state) {covered : Nat}
    {trailing : Queue} {instrs : List Instr} {placed : List Placement}
    (forward : 0 ≤ queue.delay.maxCycles)
    (ran : transferFrom setting covered state queue instrs = .ok (after, trailing, placed)) :
    Occurs setting.target after := by
  induction instrs generalizing covered state queue placed with
  | nil =>
      cases ran
      exact occurs
  | cons instr rest ih =>
      obtain ⟨turn, others, taken, ran, _⟩ := of_transferFrom_cons ran
      obtain ⟨behind, later⟩ := occurs.takeTurn forward taken
      exact ih behind later ran

/-- Joins and blocks lead from states that occur to states that occur. -/
theorem stable (setting : Setting) : Stable setting (Occurs setting.target) where
  join mine theirs := .join _ mine theirs
  transfer occurs transfer := by
    obtain ⟨⟨final, trailing, placed⟩, ran, done⟩ := Outcome.bind_eq_ok.mp transfer
    cases done
    exact occurs.transferFrom le_rfl ran

end State.Occurs

/-- All states that the analysis of a program finds occur. -/
theorem occurs_of_analyze {program : Program} {limit : Nat}
    {entry : Vector State program.size}
    (analyzed : (program.analyze setting limit).entry = .ok entry) :
    ∀ position (inside : position < program.size),
      State.Occurs setting.target entry[position] :=
  Program.every_of_analyze (State.Occurs.stable setting) .empty (fun _ => .atEntry .empty) analyzed

end WaveHazard.Hazard
